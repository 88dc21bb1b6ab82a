import Mathlib.Data.List.TakeWhile
import SimpleNFast.Construction.Http.UriReading
import SimpleNFast.Proof.Http.UriRuns

set_option maxRecDepth 100000

namespace SimpleNFast.Http

namespace Components

variable {mark rest : Text} {accepts : UInt8 → Bool}

theorem cut_none (other : mark.isPrefixOf rest = false) : cut mark accepts rest = (none, rest) := by
  rw [cut, other]
  rfl

theorem cut_some (mark rest : Text) (accepts : UInt8 → Bool) :
    cut mark accepts (mark ++ rest) = (some (rest.takeWhile accepts), rest.dropWhile accepts) := by
  rw [cut, if_pos (by simp), List.drop_left]

theorem slashes_begin (rest : Text) : (text "//").isPrefixOf (byte '/' :: byte '/' :: rest) = true :=
  List.isPrefixOf_iff_prefix.2 (List.prefix_append (text "//") rest)

theorem cut_question (rest : Text) :
    cut (text "?") inQuery (byte '?' :: rest) = (some (rest.takeWhile inQuery), rest.dropWhile inQuery) :=
  cut_some (text "?") rest inQuery

theorem cut_hash (rest : Text) : cut (text "#") (fun _ => true) (byte '#' :: rest) = (some rest, []) := by
  refine (cut_some (text "#") rest fun _ => true).trans ?_
  rw [List.takeWhile_eq_self_iff.2 (by simp), List.dropWhile_eq_nil_iff.2 (by simp)]

/-- What follows the accepted characters is nothing or begins with another one. -/
theorem dropWhile_cases (accepts : UInt8 → Bool) (rest : Text) :
    rest.dropWhile accepts = [] ∨ ∃ first more, rest.dropWhile accepts = first :: more ∧ accepts first = false := by
  cases shape : rest.dropWhile accepts with
  | nil => exact .inl rfl
  | cons first more =>
      refine .inr ⟨first, more, rfl, ?_⟩
      have refused := List.head_dropWhile_not accepts (l := rest) (by rw [shape]; exact List.cons_ne_nil _ _)
      simpa [shape] using refused

/-- A query or a fragment follows a path, or nothing does. -/
theorem pathEnds_dropWhile (rest : Text) : Uri.PathEnds (rest.dropWhile inPath) := by
  obtain none | ⟨first, more, shape, refused⟩ := dropWhile_cases inPath rest
  · rw [none]
    exact .nothing
  · rw [shape]
    simp only [inPath, Bool.and_eq_false_iff, bne_eq_false_iff_eq] at refused
    obtain rfl | rfl := refused
    · exact .question more
    · exact .hash more

theorem queryEnds_dropWhile (rest : Text) : Uri.QueryEnds (rest.dropWhile inQuery) := by
  obtain none | ⟨first, more, shape, refused⟩ := dropWhile_cases inQuery rest
  · rw [none]
    exact .nothing
  · rw [shape]
    simp only [inQuery, bne_eq_false_iff_eq] at refused
    obtain rfl := refused
    exact .hash more

end Components

namespace Uri

open Components

variable {before rest : Text} {uri : Uri} {seen : Bool}

/-- The loop goes on behind the characters that one pass has read. -/
theorem parseLoop_behind (before taken rest : Text) (uri : Uri) (seen : Bool) (fuel index : Nat)
    (moved : index = before.length + taken.length) :
    parseLoop (before ++ (taken ++ rest)) fuel uri index seen =
      parseLoop ((before ++ taken) ++ rest) fuel uri (before ++ taken).length seen := by
  rw [moved, List.append_assoc, List.length_append]

theorem parseLoop_pass {char : UInt8} (before rest : Text) (fuel : Nat) (uri : Uri) (seen : Bool) :
    parseLoop (before ++ char :: rest) (fuel + 1) uri before.length seen =
      (parseComponent uri (before ++ char :: rest) before.length seen).bind fun next =>
        parseLoop (before ++ char :: rest) fuel next.2.1 next.1 next.2.2 :=
  parseLoop_step (by simp)

/-- The loop ends with a fragment where there is one. -/
theorem parseLoop_hash (before : Text) (ends : QueryEnds rest) (uri : Uri) (seen : Bool) (fuel : Nat)
    (enough : rest.length ≤ fuel) :
    parseLoop (before ++ rest) fuel uri before.length seen =
      readFragment uri (cut (text "#") (fun _ => true) rest).1 := by
  cases ends with
  | nothing =>
      rw [List.append_nil, parseLoop_length]
      rfl
  | hash fragment =>
      obtain ⟨fuel, rfl⟩ : ∃ smaller, fuel = smaller + 1 := ⟨fuel - 1, by simp at enough; omega⟩
      have slash : (byte '#' == byte '/') = false := by decide
      have question : (byte '#' == byte '?') = false := by decide
      rw [parseLoop_pass, cut_hash, parseComponent, charAt_append, parseFragment, charAt_append, drop_behind, slash,
        question, readFragment, readMarked]
      simp only [bne_self_eq_false, beq_self_eq_true, Bool.false_eq_true, if_false, if_true]
      split
      · rfl
      · cases decodeOrThrow componentKeeps "invalid component: " fragment with
        | error fault => rfl
        | ok decoded => exact parseLoop_length _ fuel _ seen

/-- The loop ends with a query and a fragment where there are some. -/
theorem parseLoop_question (before : Text) (ends : PathEnds rest) (uri : Uri) (seen : Bool) (fuel : Nat)
    (enough : rest.length ≤ fuel) :
    parseLoop (before ++ rest) fuel uri before.length seen = (do
      readFragment (← readQuery uri (cut (text "?") inQuery rest).1)
        (cut (text "#") (fun _ => true) (cut (text "?") inQuery rest).2).1) := by
  cases ends with
  | nothing => exact parseLoop_hash before .nothing uri seen fuel enough
  | hash fragment => exact parseLoop_hash before (.hash fragment) uri seen fuel enough
  | question rest =>
      obtain ⟨fuel, rfl⟩ : ∃ smaller, fuel = smaller + 1 := ⟨fuel - 1, by simp at enough; omega⟩
      have slash : (byte '?' == byte '/') = false := by decide
      have accepts : (fun char => char != byte '#') = inQuery := rfl
      rw [parseLoop_pass, cut_question, parseComponent, charAt_append, parseQuery, charAt_append, drop_behind, slash,
        accepts, readQuery, readMarked]
      simp only [bne_self_eq_false, beq_self_eq_true, Bool.false_eq_true, if_false, if_true]
      split
      · rfl
      · cases decodeOrThrow componentKeeps "invalid component: " (rest.takeWhile inQuery) with
        | error fault => rfl
        | ok decoded =>
            have whole : before ++ byte '?' :: rest =
                before ++ ((byte '?' :: rest.takeWhile inQuery) ++ rest.dropWhile inQuery) := by
              rw [List.cons_append, List.takeWhile_append_dropWhile]
            change parseLoop (before ++ byte '?' :: rest) fuel { uri with query := decoded }
              (before.length + 1 + (rest.takeWhile inQuery).length) seen = _
            rw [whole, parseLoop_behind _ _ _ _ _ _ _ (by simp only [List.length_cons]; omega),
              parseLoop_hash _ (queryEnds_dropWhile rest) _ _ _ ?_]
            · rfl
            · have shorter := List.length_dropWhile_le inQuery rest
              simp only [List.length_cons] at enough
              omega

theorem charAt_second (before : Text) (first : UInt8) (rest : Text) :
    charAt (before ++ first :: rest) (before.length + 1) = rest.getD 0 0 := by
  simp [charAt, List.getElem?_append_right]

/-- A rest that is not taken for a scheme. -/
def NoScheme (rest : Text) : Prop := (rest.head?.any inAuthority && beginsWithScheme rest) = false

/-- The path is read where no other component begins. -/
theorem parseComponent_plain {first : UInt8} (before : Text) (inside : inPath first = true)
    (single : (text "//").isPrefixOf (first :: rest) = false) (uri : Uri)
    (plain : seen = true ∨ NoScheme (first :: rest)) :
    parseComponent uri (before ++ first :: rest) before.length seen =
      (parsePath uri (before ++ first :: rest) before.length).map fun next => (next.1, next.2, seen) := by
  have marks : (first == byte '?') = false ∧ (first == byte '#') = false := by
    rw [inPath, Bool.and_eq_true, bne_iff_ne, bne_iff_ne] at inside
    exact ⟨beq_eq_false_iff_ne.2 inside.1, beq_eq_false_iff_ne.2 inside.2⟩
  rw [parseComponent, charAt_append, charAt_second, marks.1, marks.2]
  by_cases slash : first = byte '/'
  · subst slash
    have other : (rest.getD 0 0 == byte '/') = false := by
      cases rest with
      | nil => decide
      | cons second rest =>
          rw [beq_eq_false_iff_ne]
          rintro same
          rw [List.getD_cons_zero] at same
          subst same
          rw [slashes_begin] at single
          cases single
    rw [other, beq_self_eq_true]
    rfl
  · rw [beq_eq_false_iff_ne.2 slash]
    cases seen with
    | true => rfl
    | false =>
        have accepted : inAuthority first = true := by
          rw [inPath, Bool.and_eq_true] at inside
          rw [inAuthority, inside.1, inside.2, bne_iff_ne.2 slash]
          rfl
        have other : beginsWithScheme (first :: rest) = false := by
          obtain seen | unseen := plain
          · cases seen
          · rw [NoScheme, List.head?_cons, Option.any_some, accepted, Bool.true_and] at unseen
            exact unseen
        rw [List.drop_left, other]
        rfl

/-- The loop ends with the path, the query and the fragment where no authority begins. -/
theorem parseLoop_tail (before : Text) (single : (text "//").isPrefixOf rest = false) (uri : Uri)
    (plain : seen = true ∨ NoScheme rest) (fuel : Nat) (enough : rest.length ≤ fuel) :
    parseLoop (before ++ rest) fuel uri before.length seen = readTail uri (ofTail rest) := by
  cases rest with
  | nil =>
      rw [List.append_nil, parseLoop_length]
      rfl
  | cons first rest =>
      cases inside : inPath first with
      | false =>
          have ends : PathEnds (first :: rest) := by
            have shape := pathEnds_dropWhile (first :: rest)
            rwa [List.dropWhile_cons, inside, if_neg Bool.false_ne_true] at shape
          have none : (first :: rest).takeWhile inPath = [] := by
            rw [List.takeWhile_cons, inside, if_neg Bool.false_ne_true]
          have all : (first :: rest).dropWhile inPath = first :: rest := by
            rw [List.dropWhile_cons, inside, if_neg Bool.false_ne_true]
          rw [parseLoop_question before ends uri seen fuel enough, readTail, ofTail, none, all]
          rfl
      | true =>
          obtain ⟨fuel, rfl⟩ : ∃ smaller, fuel = smaller + 1 := ⟨fuel - 1, by simp at enough; omega⟩
          have accepts : (fun char => char != byte '?' && char != byte '#') = inPath := rfl
          have shape : (first :: rest).takeWhile inPath = first :: rest.takeWhile inPath := by
            rw [List.takeWhile_cons, if_pos inside]
          have behind : (first :: rest).dropWhile inPath = rest.dropWhile inPath := by
            rw [List.dropWhile_cons, if_pos inside]
          rw [parseLoop_pass, parseComponent_plain before inside single uri plain, parsePath, List.drop_left, accepts,
            readTail, ofTail, shape, behind, readPath]
          simp only [List.isEmpty_cons, Bool.false_eq_true, if_false]
          split
          · rfl
          · cases uri.path.set (first :: rest.takeWhile inPath) with
            | error fault => rfl
            | ok path =>
                have whole : before ++ first :: rest =
                    before ++ ((first :: rest.takeWhile inPath) ++ rest.dropWhile inPath) := by
                  rw [List.cons_append, List.takeWhile_append_dropWhile]
                change parseLoop (before ++ first :: rest) fuel { uri with path }
                  (before.length + (first :: rest.takeWhile inPath).length) seen = _
                rw [whole, parseLoop_behind _ _ _ _ _ _ _ rfl, parseLoop_question _ (pathEnds_dropWhile rest) _ _ _ ?_]
                · rfl
                · have shorter := List.length_dropWhile_le inPath rest
                  simp only [List.length_cons] at enough
                  omega

section Authority

theorem drop_takeWhile (accepts : UInt8 → Bool) (rest : Text) :
    rest.drop (rest.takeWhile accepts).length = rest.dropWhile accepts := by
  have whole := congrArg (List.drop (rest.takeWhile accepts).length) (@List.takeWhile_append_dropWhile _ accepts rest)
  rw [List.drop_left] at whole
  exact whole.symm

theorem charAt_drop (string : Text) (index : Nat) : charAt string index = (string.drop index).getD 0 0 := by
  simp [charAt]

theorem getD_head {rest : Text} {char : UInt8} (visible : char ≠ 0) : rest.getD 0 0 = char ↔ rest.head? = some char := by
  cases rest with
  | nil => simpa using visible.symm
  | cons first rest => simp

/-- A character stands at an index when the rest begins with it. -/
theorem charAt_head {string : Text} {index : Nat} {char : UInt8} (visible : char ≠ 0) :
    charAt string index = char ↔ (string.drop index).head? = some char := by
  rw [charAt_drop, getD_head visible]

/-- The rest behind the other characters begins with a character where it occurs at all. -/
theorem head_dropWhile_other (char : UInt8) (rest : Text) :
    (rest.dropWhile (· != char)).head? = some char ↔ char ∈ rest := by
  induction rest with
  | nil => simp
  | cons first rest inductionHypothesis =>
      rw [List.dropWhile_cons]
      by_cases same : first = char
      · simp [same]
      · rw [if_pos (bne_iff_ne.2 same), inductionHypothesis, List.mem_cons]
        exact ⟨.inr, fun member => member.resolve_left (Ne.symm same)⟩

/-- The first place of a character divides a text. -/
theorem takeWhile_mark {char : UInt8} {rest : Text} (member : char ∈ rest) :
    rest.takeWhile (· != char) ++ char :: (rest.dropWhile (· != char)).drop 1 = rest := by
  have begins := (head_dropWhile_other char rest).2 member
  have whole := @List.takeWhile_append_dropWhile _ (· != char) rest
  cases shape : rest.dropWhile (· != char) with
  | nil =>
      rw [shape] at begins
      cases begins
  | cons first more =>
      rw [shape, List.head?_cons, Option.some.injEq] at begins
      rwa [shape, begins] at whole

theorem takeWhile_length_lt {char : UInt8} {rest : Text} (member : char ∈ rest) :
    (rest.takeWhile (· != char)).length < rest.length := by
  have whole := congrArg List.length (takeWhile_mark member)
  rw [List.length_append, List.length_cons] at whole
  omega

theorem takeWhile_congr {accepts other : UInt8 → Bool} (same : ∀ char ∈ rest, accepts char = other char) :
    rest.takeWhile accepts = rest.takeWhile other := by
  induction rest with
  | nil => rfl
  | cons first rest inductionHypothesis =>
      rw [List.takeWhile_cons, List.takeWhile_cons, same first List.mem_cons_self,
        inductionHypothesis fun char member => same char (List.mem_cons_of_mem _ member)]

theorem takeWhile_other {char : UInt8} {rest : Text} (none : char ∉ rest) : rest.takeWhile (· != char) = rest := by
  rw [List.takeWhile_eq_self_iff]
  intro other member
  rw [bne_iff_ne]
  rintro rfl
  exact none member

theorem readHost_suffix {authority host after : Text} (found : readHost authority rest = .ok (host, after)) :
    after <:+ rest := by
  rw [readHost] at found
  split at found
  · split at found
    · cases found
      exact (List.drop_suffix _ _).trans (List.dropWhile_suffix _)
    · cases found
  · cases found
    exact List.dropWhile_suffix _

/-- The host is read at its index. -/
theorem authorityHost_read {authority : Text} (flat : ∀ char ∈ authority, inAuthority char = true) {start : Nat}
    (inside : start ≤ authority.length) :
    authorityHost authority start =
      (readHost authority (authority.drop start)).map fun found => (found.1, authority.length - found.2.length) := by
  have index (after : Text) (stop : Nat) (suffix : after <:+ authority.drop start)
      (there : (authority.drop start).length = stop - start + after.length) (later : start ≤ stop) :
      authority.length - after.length = stop := by
    rw [List.length_drop] at there
    omega
  have whole (accepts : UInt8 → Bool) : (authority.drop start).length =
      ((authority.drop start).takeWhile accepts).length + ((authority.drop start).dropWhile accepts).length := by
    rw [← List.length_append, List.takeWhile_append_dropWhile]
  rw [authorityHost, readHost]
  simp only [beq_iff_eq, @charAt_head authority start (byte '[') (by decide), bne_iff_ne, ne_eq]
  split
  · have closing : charAt authority (start + ((authority.drop start).takeWhile (· != byte ']')).length) = byte ']' ↔
        byte ']' ∈ authority.drop start := by
      rw [charAt_head (by decide), ← List.drop_drop, drop_takeWhile, head_dropWhile_other]
    by_cases closed : byte ']' ∈ authority.drop start
    · have begins := (head_dropWhile_other (byte ']') _).2 closed
      have behind : ((authority.drop start).dropWhile (· != byte ']')).length =
          (((authority.drop start).dropWhile (· != byte ']')).drop 1).length + 1 := by
        cases shape : (authority.drop start).dropWhile (· != byte ']') with
        | nil =>
            rw [shape] at begins
            cases begins
        | cons first more => rfl
      rw [if_neg (not_not.2 (closing.2 closed)), if_pos closed]
      have moved := index (((authority.drop start).dropWhile (· != byte ']')).drop 1)
        (start + ((authority.drop start).takeWhile (· != byte ']')).length + 1)
        ((List.drop_suffix _ _).trans (List.dropWhile_suffix _)) (by rw [whole (· != byte ']'), behind]; omega) (by omega)
      exact congrArg (fun stop => Except.ok (_, stop)) moved.symm
    · rw [if_pos (mt closing.1 closed), if_neg closed, takeWhile_other closed, List.length_drop, Nat.add_sub_cancel' inside]
      rfl
  · have same : (authority.drop start).takeWhile (fun char => char != byte ':' && char != byte '/') =
        (authority.drop start).takeWhile (· != byte ':') := by
      refine takeWhile_congr fun char member => ?_
      have accepted := flat char (List.mem_of_mem_drop member)
      rw [inAuthority, Bool.and_eq_true, Bool.and_eq_true] at accepted
      rw [accepted.1.1, Bool.and_true]
    have moved := index ((authority.drop start).dropWhile (· != byte ':'))
      (start + ((authority.drop start).takeWhile (· != byte ':')).length) (List.dropWhile_suffix _)
      (by rw [whole (· != byte ':')]; omega) (by omega)
    rw [same]
    exact congrArg (fun stop => Except.ok (_, stop)) moved.symm

/-- The host and the port are read behind the user. -/
theorem address_read {authority : Text} (flat : ∀ char ∈ authority, inAuthority char = true) {start : Nat}
    (inside : start ≤ authority.length) (uri : Uri) (stop : Nat) :
    (do
      let found ← authorityHost authority start
      let host ← UriHost.set found.1
      if charAt authority found.2 == byte ':' then
        let port ← UriPort.set (authority.drop (found.2 + 1))
        pure (stop, { uri with host, port })
      else pure (stop, { uri with host })) =
      (readAddress uri authority (authority.drop start)).map fun uri => (stop, uri) := by
  rw [authorityHost_read flat inside, readAddress]
  cases read : readHost authority (authority.drop start) with
  | error fault => rfl
  | ok found =>
      obtain ⟨host, after⟩ := found
      have behind : authority.drop (authority.length - after.length) = after :=
        (List.suffix_iff_eq_drop.1 ((readHost_suffix read).trans (List.drop_suffix _ _))).symm
      have colon : charAt authority (authority.length - after.length) = byte ':' ↔ after.head? = some (byte ':') := by
        rw [charAt_head (by decide), behind]
      change (UriHost.set host).bind _ = Except.map _ ((UriHost.set host).bind _)
      cases UriHost.set host with
      | error fault => rfl
      | ok decoded =>
          change (if (charAt authority (authority.length - after.length) == byte ':') = true then
            (UriPort.set (authority.drop (authority.length - after.length + 1))).bind _ else _) =
              Except.map _ (readPort _ after)
          rw [← List.drop_drop, behind, readPort]
          by_cases port : after.head? = some (byte ':')
          · rw [if_pos (beq_iff_eq.2 (colon.2 port)), if_pos port]
            cases UriPort.set (after.drop 1) <;> rfl
          · rw [if_neg (mt (fun same => colon.1 (beq_iff_eq.1 same)) port), if_neg port]
            rfl

theorem parseAuthority_read (before rest : Text) (uri : Uri) :
    parseAuthority uri (before ++ byte '/' :: byte '/' :: rest) before.length =
      (readAuthority uri (rest.takeWhile inAuthority)).map fun uri =>
        (before.length + 2 + (rest.takeWhile inAuthority).length, uri) := by
  have flat : ∀ char ∈ rest.takeWhile inAuthority, inAuthority char = true :=
    fun char member => List.all_eq_true.1 List.all_takeWhile char member
  have second : charAt (before ++ byte '/' :: byte '/' :: rest) (before.length + 1) = byte '/' := charAt_second _ _ _
  have behind : (before ++ byte '/' :: byte '/' :: rest).drop (before.length + 2) = rest := by
    rw [← List.drop_drop, List.drop_left]
    rfl
  have accepts : (fun char => char != byte '/' && char != byte '?' && char != byte '#') = inAuthority := rfl
  rw [parseAuthority, charAt_append, second, behind, accepts, readAuthority]
  generalize rest.takeWhile inAuthority = authority at flat
  simp only [bne_self_eq_false, Bool.or_self, Bool.false_eq_true, if_false]
  by_cases user : byte '@' ∈ authority
  · have inside := takeWhile_length_lt user
    rw [if_pos user, if_pos user, readUserinfo, ← drop_takeWhile, List.drop_drop]
    split
    · rfl
    · cases UriUserinfo.set (authority.takeWhile (· != byte '@')) with
      | error fault => rfl
      | ok userinfo => exact address_read flat inside { uri with userinfo } _
  · rw [if_neg user, if_neg user]
    exact address_read flat (Nat.zero_le _) uri _

end Authority

theorem noScheme_behind (rest : Text) : NoScheme (rest.dropWhile inAuthority) := by
  obtain none | ⟨first, more, shape, refused⟩ := dropWhile_cases inAuthority rest
  · rw [none]
    rfl
  · rw [shape, NoScheme, List.head?_cons, Option.any_some, refused, Bool.false_and]

/-- The loop reads the authorities and then the other components. -/
theorem parseLoop_read (before rest : Text) (uri : Uri) (plain : seen = true ∨ NoScheme rest) (fuel count : Nat)
    (enough : rest.length ≤ fuel) (more : rest.length < count) :
    parseLoop (before ++ rest) fuel uri before.length seen = readAuthorities count uri rest := by
  induction count generalizing before rest uri fuel with
  | zero => exact absurd more (Nat.not_lt_zero _)
  | succ count inductionHypothesis =>
      rw [readAuthorities]
      by_cases begins : text "//" <+: rest
      · obtain ⟨rest, rfl⟩ := begins
        change parseLoop (before ++ byte '/' :: byte '/' :: rest) fuel uri before.length seen = _
        change (byte '/' :: byte '/' :: rest).length ≤ fuel at enough
        change (byte '/' :: byte '/' :: rest).length < count + 1 at more
        simp only [List.length_cons] at enough more
        obtain ⟨fuel, rfl⟩ : ∃ smaller, fuel = smaller + 1 := ⟨fuel - 1, by omega⟩
        have second : charAt (before ++ byte '/' :: byte '/' :: rest) (before.length + 1) = byte '/' :=
          charAt_second _ _ _
        have shorter := List.length_dropWhile_le inAuthority rest
        have tail (later : Uri) := inductionHypothesis (before ++ byte '/' :: byte '/' :: rest.takeWhile inAuthority)
          (rest.dropWhile inAuthority) later (.inr (noScheme_behind rest)) fuel (by omega) (by omega)
        have joined : (before ++ byte '/' :: byte '/' :: rest.takeWhile inAuthority) ++ rest.dropWhile inAuthority =
            before ++ byte '/' :: byte '/' :: rest := by
          rw [List.append_assoc, List.cons_append, List.cons_append, List.takeWhile_append_dropWhile]
        have index : (before ++ byte '/' :: byte '/' :: rest.takeWhile inAuthority).length =
            before.length + 2 + (rest.takeWhile inAuthority).length := by
          simp only [List.length_append, List.length_cons]
          omega
        rw [cut_some, parseLoop_pass, parseComponent, charAt_append, second, parseAuthority_read]
        simp only [beq_self_eq_true, if_true]
        cases readAuthority uri (rest.takeWhile inAuthority) with
        | error fault => rfl
        | ok later =>
            rw [joined, index] at tail
            exact tail later
      · have single : (text "//").isPrefixOf rest = false := by
          rw [Bool.eq_false_iff, Ne, List.isPrefixOf_iff_prefix]
          exact begins
        rw [cut_none single, parseLoop_tail before single uri plain fuel enough]

/-- A string that begins like a scheme has a colon before any slash. -/
theorem beginsWithScheme_iff (string : Text) :
    beginsWithScheme string = true ↔
      ∃ word rest, string = word ++ byte ':' :: rest ∧ byte ':' ∉ word ∧ byte '/' ∉ word := by
  rw [beginsWithScheme, beq_iff_eq, List.find?_eq_some_iff_append]
  constructor
  · rintro ⟨-, word, rest, rfl, other⟩
    refine ⟨word, rest, rfl, fun colon => ?_, fun slash => ?_⟩
    · exact absurd (other _ colon) (by decide)
    · exact absurd (other _ slash) (by decide)
  · rintro ⟨word, rest, rfl, colon, slash⟩
    refine ⟨by decide, word, rest, rfl, fun char member => ?_⟩
    have first : char ≠ byte ':' := by
      rintro rfl
      exact colon member
    have second : char ≠ byte '/' := by
      rintro rfl
      exact slash member
    simp [first, second]

theorem takeWhile_before {char : UInt8} {word : Text} (none : char ∉ word) (rest : Text) :
    (word ++ char :: rest).takeWhile (· != char) = word := by
  refine takeWhile_stop (fun other member => ?_) (by simp) rest
  rw [bne_iff_ne]
  rintro rfl
  exact none member

theorem dropWhile_before {char : UInt8} {word : Text} (none : char ∉ word) (rest : Text) :
    (word ++ char :: rest).dropWhile (· != char) = char :: rest := by
  rw [← drop_takeWhile, takeWhile_before none, List.drop_left]

/-- The parser reads the string from its start to its end. -/
theorem parse_read (string : Text) : Uri.parse string = read string := by
  rw [Uri.parse, read]
  cases begins : string.head?.any inAuthority && beginsWithScheme string with
  | false =>
      rw [if_neg Bool.false_ne_true, readHierarchy]
      exact parseLoop_read [] string empty (.inr begins) _ _ le_rfl (Nat.lt_succ_self _)
  | true =>
      rw [Bool.and_eq_true] at begins
      obtain ⟨word, rest, shape, none, -⟩ := (beginsWithScheme_iff string).1 begins.2
      have first : charAt string 0 ≠ byte '/' ∧ charAt string 0 ≠ byte '?' ∧ charAt string 0 ≠ byte '#' := by
        have accepted := begins.1
        cases string with
        | nil => cases accepted
        | cons first string =>
            change first ≠ byte '/' ∧ first ≠ byte '?' ∧ first ≠ byte '#'
            simpa [inAuthority, Bool.and_eq_true, and_assoc] using accepted
      have colon : charAt string (0 + word.length) = byte ':' := by
        rw [shape, Nat.zero_add]
        exact charAt_append word (byte ':') rest
      have taken : string.takeWhile (· != byte ':') = word := by
        rw [shape]
        exact takeWhile_before none rest
      have left : string.dropWhile (· != byte ':') = byte ':' :: rest := by
        rw [shape]
        exact dropWhile_before none rest
      have long : string.length = word.length + rest.length + 1 := by
        rw [shape, List.length_append, List.length_cons, Nat.add_assoc]
      have step : parseComponent empty string 0 false =
          (UriScheme.set word).map fun scheme => (word.length + 1, { empty with scheme }, true) := by
        rw [parseComponent, beq_eq_false_iff_ne.2 first.1, beq_eq_false_iff_ne.2 first.2.1,
          beq_eq_false_iff_ne.2 first.2.2, List.drop_zero, begins.2, parseScheme, List.drop_zero, taken, colon]
        simp only [Bool.false_eq_true, if_false, if_true, bne_self_eq_false, Nat.zero_add]
        cases UriScheme.set word <;> rfl
      rw [if_pos rfl, long, parseLoop_step (by omega), step, taken, left]
      cases UriScheme.set word with
      | error fault => rfl
      | ok scheme =>
          have behind := parseLoop_read (word ++ [byte ':']) rest { empty with scheme } (.inl rfl)
            (word.length + rest.length) (rest.length + 1) (Nat.le_add_left _ _) (Nat.lt_succ_self _)
          rw [List.append_assoc, List.singleton_append, ← shape, List.length_append] at behind
          exact behind

end Uri

end SimpleNFast.Http
