import SimpleNFast.Construction.Http.UriAccess
import SimpleNFast.Proof.Http.UriParts

set_option maxRecDepth 100000

namespace SimpleNFast.Http

@[simp] theorem ok_bind {reason first second : Type} (value : first) (next : first → Except reason second) :
    ((Except.ok value : Except reason first) >>= next) = next value := rfl

namespace Checked

open Turn (Passes)

section Reads

variable {string : Text} {index : Nat}

theorem charAt_inside (inside : index ≤ string.length) : charAt string index = .ok (Uri.charAt string index) :=
  if_pos inside

theorem drop_inside (inside : index < string.length) :
    string.drop index = Uri.charAt string index :: string.drop (index + 1) := by
  rw [List.drop_eq_getElem_cons inside, Uri.charAt, List.getD_eq_getElem?_getD, List.getElem?_eq_getElem inside]
  rfl

/-- The terminator of the string is behind its last character. -/
theorem charAt_next (inside : index < string.length) :
    charAt string (index + 1) = .ok ((string.drop (index + 1)).head?.getD 0) := by
  rw [charAt_inside inside, Uri.charAt, List.head?_drop, List.getD_eq_getElem?_getD]

theorem substr_inside (inside : index ≤ string.length) (count : Nat) :
    substr string index count = .ok ((string.drop index).take count) :=
  if_pos inside

theorem substrFrom_inside (inside : index ≤ string.length) : substrFrom string index = .ok (string.drop index) := by
  rw [substrFrom, substr_inside inside, List.take_of_length_le]
  rw [List.length_drop]
  omega

/-- The look ahead of two characters ends at the terminator. -/
theorem uriPercentEncoded_inside (inside : index < string.length) :
    uriPercentEncoded string index = .ok (Http.uriPercentEncoded (string.drop index)) := by
  have terminator : isXdigit (toInt 0) = false := by decide
  rw [uriPercentEncoded, charAt_inside (Nat.le_of_lt inside), drop_inside inside]
  generalize Uri.charAt string index = sign
  by_cases percent : sign = byte '%'
  · subst percent
    change (charAt string (index + 1) >>= _) = _
    rw [charAt_next inside]
    by_cases ends : string.length ≤ index + 1
    · rw [List.drop_eq_nil_of_le ends]
      rfl
    · have inside := not_le.1 ends
      rw [drop_inside inside]
      change (if (!isXdigit (toInt (Uri.charAt string (index + 1)))) = true then _ else _) = _
      generalize Uri.charAt string (index + 1) = first
      cases high : isXdigit (toInt first) with
      | false =>
          cases string.drop (index + 1 + 1) with
          | nil => rfl
          | cons second rest => simp [Http.uriPercentEncoded, high, pure, Except.pure]
      | true =>
          change (charAt string (index + 1 + 1) >>= _) = _
          rw [charAt_next inside]
          cases string.drop (index + 1 + 1) with
          | nil => rfl
          | cons second rest => simp [Http.uriPercentEncoded, high, bind, Except.bind, pure, Except.pure]
  · have other : (sign != byte '%') = true := bne_iff_ne.2 percent
    have refused : Http.uriPercentEncoded (sign :: string.drop (index + 1)) = false := by
      cases string.drop (index + 1) with
      | nil => rfl
      | cons first rest =>
          cases rest with
          | nil => rfl
          | cons second rest => simp [Http.uriPercentEncoded, percent]
    change (if (sign != byte '%') = true then _ else _) = _
    rw [other, refused]
    rfl

end Reads

section Loops

variable {state result : Type} {string : Text} {body : state → Checked (Turn state result)} {now : state}

/-- A loop whose index moves on over the string gives the answer of its first state. -/
theorem loop_eq (place : state → Nat) (answer : state → Checked result)
    (passes : ∀ now, Passes (fun _ => True) (fun now => string.length - place now) answer now (body now)) :
    loop string body now = answer now :=
  Turn.run_eq (fun now _ => passes now) (Nat.lt_succ_of_le (Nat.sub_le _ _)) trivial

section Scans

variable {string : Text}

/-- The scan stops at the first character that stops it, or at the end of the string. -/
theorem scan_eq (stops : UInt8 → Bool) (start : Nat) :
    scan stops string start = .ok (start + ((string.drop start).takeWhile fun char => !stops char).length) := by
  refine loop_eq id (fun ei => .ok (ei + ((string.drop ei).takeWhile fun char => !stops char).length)) fun ei => ?_
  rw [scanPass]
  by_cases inside : ei < string.length
  · rw [if_pos inside, charAt_inside (Nat.le_of_lt inside)]
    change Passes _ _ _ _ (if stops (Uri.charAt string ei) = true then .ok (.done ei) else .ok (.next (ei + 1)))
    cases stopped : stops (Uri.charAt string ei) with
    | true =>
        refine .ends ?_
        rw [drop_inside inside]
        simp [stopped]
    | false =>
        refine .goes trivial (Nat.sub_succ_lt_self _ _ inside) ?_
        rw [drop_inside inside]
        simp [stopped, Nat.add_assoc, Nat.add_comm 1]
  · rw [if_neg inside]
    refine .ends ?_
    rw [List.drop_eq_nil_of_le (not_lt.1 inside)]
    rfl

/-- The part before the end of a scan. -/
theorem substr_scan {start : Nat} (inside : start ≤ string.length) (accepts : UInt8 → Bool) :
    substr string start (start + ((string.drop start).takeWhile accepts).length - start) =
      .ok ((string.drop start).takeWhile accepts) := by
  rw [substr_inside inside, Nat.add_sub_cancel_left]
  exact congrArg _ (List.prefix_iff_eq_take.1 ( List.takeWhile_prefix accepts)).symm

theorem eachPass_eq (accepts : Int → Bool) (start : Nat) :
    loop string (eachPass accepts string) start = .ok ((string.drop start).all (accepts ∘ toInt)) := by
  refine loop_eq id (fun i => .ok ((string.drop i).all (accepts ∘ toInt))) fun i => ?_
  rw [eachPass]
  by_cases inside : i < string.length
  · rw [if_pos inside, charAt_inside (Nat.le_of_lt inside)]
    change Passes _ _ _ _ (if accepts (toInt (Uri.charAt string i)) = true then .ok (.next (i + 1)) else .ok (.done false))
    cases accepted : accepts (toInt (Uri.charAt string i)) with
    | true =>
        refine .goes trivial (Nat.sub_succ_lt_self _ _ inside) ?_
        rw [drop_inside inside]
        simp [accepted]
    | false =>
        refine .ends ?_
        rw [drop_inside inside]
        simp [accepted]
  · rw [if_neg inside]
    refine .ends ?_
    rw [List.drop_eq_nil_of_le (not_lt.1 inside)]
    rfl

end Scans

section Decoding

variable {keeps : Int → Bool} {string : Text}

@[simp] theorem ofFault_ok {value : Type} (result : value) : ofFault (.ok result) = .ok result := rfl

@[simp] theorem ofFault_error {value : Type} (fault : Fault) :
    ofFault (.error fault : Except Fault value) = .error (.fault fault) := rfl

/-- A character that is neither kept nor the start of an escape is not decoded. -/
theorem decodeKeeping_refused {char : UInt8} (other : keeps (toInt char) = false) {rest : Text}
    (single : Http.uriPercentEncoded (char :: rest) = false) : decodeKeeping keeps (char :: rest) = none := by
  rw [decodeKeeping.eq_def]
  cases rest with
  | nil => simp [other]
  | cons first rest =>
      cases rest with
      | nil => simp [other]
      | cons second rest => simp [other, single]

/-- An escape has two hexadecimal digits behind its sign. -/
theorem escape_digits {index : Nat} (escaped : Http.uriPercentEncoded (string.drop index) = true) :
    ∃ first second, string.drop index = byte '%' :: first :: second :: string.drop (index + 3) ∧
      isXdigit (toInt first) = true ∧ isXdigit (toInt second) = true := by
  rw [← List.drop_drop]
  match string.drop index, escaped with
  | sign :: first :: second :: rest, escaped =>
      simp only [Http.uriPercentEncoded, Bool.and_eq_true, beq_iff_eq] at escaped
      obtain ⟨⟨rfl, high⟩, low⟩ := escaped
      exact ⟨first, second, rfl, high, low⟩

theorem drop_escape {index : Nat} {first second : UInt8}
    (shape : string.drop index = byte '%' :: first :: second :: string.drop (index + 3)) :
    string.drop (index + 1) = first :: second :: string.drop (index + 3) := by
  rw [← List.tail_drop, shape, List.tail_cons]

theorem isXdigit_plain : ∀ char, isXdigit (toInt char) = true →
    isSpace (toInt char) = false ∧ char ≠ byte '-' ∧ char ≠ byte '+' ∧ digitValue (toInt char) < 16 := by
  apply octet_forall
  decide

/-- The conversion of two hexadecimal digits succeeds. -/
theorem stoi16_digits {first second : UInt8} (high : isXdigit (toInt first) = true)
    (low : isXdigit (toInt second) = true) : stoi16 [first, second] = .ok (number 16 [first, second] : Int) := by
  obtain ⟨space, minus, plus, upper⟩ := isXdigit_plain first high
  obtain ⟨-, -, -, lower⟩ := isXdigit_plain second low
  have value : number 16 [first, second] = digitValue (toInt first) * 16 + digitValue (toInt second) := by
    simp [number]
  have small : number 16 [first, second] < 2147483648 := by
    rw [value]
    omega
  simp [stoi16, space, minus, plus, high, low, small]

/-- What the loops over a coded text find at an index. -/
inductive Found (keeps : Int → Bool) (string : Text) (index : Nat) : Prop where
  | kept (accepted : keeps (toInt (Uri.charAt string index)) = true)
      (decoded : decodeKeeping keeps (string.drop index) =
        (decodeKeeping keeps (string.drop (index + 1))).map (Uri.charAt string index :: ·))
  | refused (other : keeps (toInt (Uri.charAt string index)) = false)
      (single : uriPercentEncoded string index = .ok false) (decoded : decodeKeeping keeps (string.drop index) = none)
  | escape {first second : UInt8} (other : keeps (toInt (Uri.charAt string index)) = false)
      (escaped : uriPercentEncoded string index = .ok true) (taken : substr string (index + 1) 2 = .ok [first, second])
      (converted : stoi16 [first, second] = .ok (number 16 [first, second] : Int))
      (decoded : decodeKeeping keeps (string.drop index) =
        (decodeKeeping keeps (string.drop (index + 3))).map (toByte (number 16 [first, second]) :: ·))

theorem found_inside (keeps : Int → Bool) {index : Nat} (inside : index < string.length) : Found keeps string index := by
  have rest := drop_inside inside
  have read := uriPercentEncoded_inside inside
  cases kept : keeps (toInt (Uri.charAt string index)) with
  | true => exact .kept kept (by rw [rest, decodeKeeping_kept kept])
  | false =>
      cases escaped : Http.uriPercentEncoded (string.drop index) with
      | false =>
          rw [escaped] at read
          rw [rest] at escaped
          exact .refused kept read (by rw [rest, decodeKeeping_refused kept escaped])
      | true =>
          obtain ⟨first, second, shape, high, low⟩ := escape_digits escaped
          have sign : Uri.charAt string index = byte '%' := (List.cons.inj (rest.symm.trans shape)).1
          rw [escaped] at read
          rw [shape] at escaped
          refine .escape kept read ?_ (stoi16_digits high low) ?_
          · rw [substr_inside inside, drop_escape shape, List.take_succ_cons, List.take_succ_cons, List.take_zero]
          · rw [shape, decodeKeeping_escape (sign ▸ kept), if_pos escaped]

theorem decodeKeeping_filled {decoded : Text} (filled : string ≠ []) (read : decodeKeeping keeps string = some decoded) :
    decoded ≠ [] := by
  have whole : decodeKeeping keeps (string.drop 0) = some decoded := read
  cases found_inside keeps (List.length_pos_of_ne_nil filled) with
  | kept accepted shape =>
      rw [shape, Option.map_eq_some_iff] at whole
      obtain ⟨_, _, rfl⟩ := whole
      exact List.cons_ne_nil _ _
  | refused other single shape =>
      rw [shape] at whole
      cases whole
  | escape other escaped taken converted shape =>
      rw [shape, Option.map_eq_some_iff] at whole
      obtain ⟨_, _, rfl⟩ := whole
      exact List.cons_ne_nil _ _

/-- The loop of `decode` reads inside of the string, and it throws where the string is not valid. -/
theorem decode_eq (what : String) : decode keeps what string = ofFault (decodeOrThrow keeps what string) := by
  let answer (now : Nat × Text) : Checked Text :=
    (decodeKeeping keeps (string.drop now.1)).elim (.error (.fault (.badUri (text what ++ string))))
      fun decoded => .ok (now.2 ++ decoded)
  have whole : decode keeps what string = answer (0, []) := by
    refine loop_eq Prod.fst answer fun now => ?_
    obtain ⟨i, ostr⟩ := now
    rw [decodePass]
    by_cases inside : i < string.length
    · rw [if_pos inside, charAt_inside (Nat.le_of_lt inside), ok_bind]
      cases found_inside keeps inside with
      | kept accepted decoded =>
          rw [if_pos accepted]
          refine .goes trivial (Nat.sub_succ_lt_self _ _ inside) ?_
          simp only [answer, decoded]
          cases decodeKeeping keeps (string.drop (i + 1)) <;> simp
      | refused other single decoded =>
          rw [other, single]
          refine .fails ?_
          simp only [answer, decoded, Option.elim_none]
      | escape other escaped taken converted decoded =>
          rw [other, escaped, taken]
          simp only [ok_bind, converted, ofFault_ok, if_true, Bool.false_eq_true, if_false]
          refine .goes trivial (by dsimp only; omega) ?_
          simp only [answer, decoded]
          cases decodeKeeping keeps (string.drop (i + 3)) <;> simp
    · rw [if_neg inside]
      refine .ends ?_
      simp [answer, List.drop_eq_nil_of_le (not_lt.1 inside), decodeKeeping]
  rw [whole, decodeOrThrow]
  simp only [answer, List.drop_zero, List.nil_append]
  cases decodeKeeping keeps string <;> rfl

theorem valid_eq : valid keeps string = .ok (!string.isEmpty && validKeeping keeps string) := by
  let answer (i : Nat) : Checked Bool := .ok (decodeKeeping keeps (string.drop i)).isSome
  have whole : loop string (validPass keeps string) 0 = answer 0 := by
    refine loop_eq id answer fun i => ?_
    rw [validPass]
    by_cases inside : i < string.length
    · rw [if_pos inside, charAt_inside (Nat.le_of_lt inside), ok_bind]
      cases found_inside keeps inside with
      | kept accepted decoded =>
          rw [if_pos accepted]
          refine .goes trivial (Nat.sub_succ_lt_self _ _ inside) ?_
          simp only [answer, decoded, Option.isSome_map]
      | refused other single decoded =>
          rw [other, single]
          refine .ends ?_
          simp only [answer, decoded, Option.isSome_none]
      | escape other escaped taken converted decoded =>
          rw [other, escaped]
          refine .goes trivial (by dsimp only [id]; omega) ?_
          simp only [answer, decoded, Option.isSome_map]
    · rw [if_neg inside]
      refine .ends ?_
      simp [answer, List.drop_eq_nil_of_le (not_lt.1 inside), decodeKeeping]
  rw [valid, whole, validKeeping_eq]
  cases string <;> rfl

end Decoding

section Components

variable {string : Text}

theorem front_filled (filled : string ≠ []) : front string = .ok (string.head filled) := by
  obtain ⟨first, rest, rfl⟩ := List.exists_cons_of_ne_nil filled
  rfl

theorem back_filled (filled : string ≠ []) : back string = .ok (string.getLast filled) := by
  have inside : string.length - 1 < string.length := Nat.sub_lt (List.length_pos_of_ne_nil filled) Nat.one_pos
  rw [back, List.isEmpty_eq_false_iff.2 filled, if_neg Bool.false_ne_true, charAt_inside (Nat.sub_le _ _), Uri.charAt,
    List.getD_eq_getElem?_getD, List.getElem?_eq_getElem inside, List.getLast_eq_getElem]
  rfl

namespace UriScheme

theorem isValid_eq (scheme : Text) : isValid scheme = .ok (Http.UriScheme.isValid scheme) := by
  cases scheme with
  | nil => rfl
  | cons first rest =>
      rw [isValid, eachPass_eq, charAt_inside (Nat.zero_le _), ok_bind, List.drop_one, List.tail_cons]
      change (if (!isAlpha (toInt first)) = true then _ else _) = _
      cases letter : isAlpha (toInt first) with
      | false => simp [Http.UriScheme.isValid, letter, pure, Except.pure]
      | true => simp [Http.UriScheme.isValid, letter, Function.comp_def]

theorem set_eq (scheme : Text) : set scheme = ofFault (Http.UriScheme.set scheme) := by
  rw [set, isValid_eq, ok_bind, Http.UriScheme.set]
  cases Http.UriScheme.isValid scheme <;> rfl

end UriScheme

namespace UriPort

theorem isValid_eq (port : Text) : isValid port = ofFault (Http.UriPort.isValid port) := by
  rw [isValid, Http.UriPort.isValid, eachPass_eq, ok_bind, List.drop_zero]
  cases port.isEmpty with
  | true => rfl
  | false =>
      cases port.all (isDigit ∘ toInt) with
      | false => rfl
      | true => cases stoi port <;> rfl

theorem set_eq (port : Text) : set port = ofFault (Http.UriPort.set port) := by
  rw [set, isValid_eq, Http.UriPort.set]
  cases Http.UriPort.isValid port with
  | error fault => rfl
  | ok valid => cases valid <;> rfl

end UriPort

namespace UriHost

theorem isValid_eq (host : Text) : isValid host = .ok (Http.UriHost.isValid host) := by
  rw [isValid, Http.UriHost.isValid]
  by_cases filled : host = []
  · subst filled
    rfl
  · have some : host.isEmpty = false := List.isEmpty_eq_false_iff.2 filled
    have inside : 1 ≤ host.length := List.length_pos_of_ne_nil filled
    rw [some, front_filled filled, back_filled filled, substr_inside inside, isRegularHostname, valid_eq, some,
      List.head?_eq_some_head filled, List.getLast?_eq_some_getLast filled]
    simp only [Bool.false_eq_true, if_false, ok_bind, Option.some.injEq, Bool.and_eq_true, beq_iff_eq]
    by_cases bracket : host.head filled = byte '[' ∧ host.getLast filled = byte ']'
    · rw [if_pos bracket, if_pos bracket]
      rfl
    · rw [if_neg bracket, if_neg bracket, Http.UriHost.isRegularHostname, some]
      cases inetPton4 (cString host) <;> rfl

theorem set_eq (host : Text) : set host = ofFault (Http.UriHost.set host) := by
  rw [set, isValid_eq, ok_bind, decode_eq, Http.UriHost.set]
  cases Http.UriHost.isValid host <;> rfl

end UriHost

theorem charAt_escape {index : Nat} {first second : UInt8}
    (shape : string.drop index = byte '%' :: first :: second :: string.drop (index + 3)) :
    charAt string (index + 2) = .ok second := by
  have behind : string.drop (index + 2) = second :: string.drop (index + 3) := by
    rw [← List.tail_drop, drop_escape shape, List.tail_cons]
  have inside : index + 2 < string.length := by
    by_contra outside
    rw [List.drop_eq_nil_of_le (not_lt.1 outside)] at behind
    cases behind
  rw [charAt_inside (Nat.le_of_lt inside), (List.cons.inj ((drop_inside inside).symm.trans behind)).1]

/-- The first place of a character is behind the characters before it. -/
theorem findFirstOf_eq (string : Text) (char : UInt8) (start : Nat) :
    findFirstOf string char start =
      if char ∈ string.drop start then some (start + ((string.drop start).takeWhile (· != char)).length) else none := by
  rw [findFirstOf]
  generalize string.drop start = rest
  have found : rest.findIdx? (· == char) =
      if char ∈ rest then some (rest.takeWhile (· != char)).length else none := by
    induction rest with
    | nil => rfl
    | cons first rest inductionHypothesis =>
        rw [List.findIdx?_cons, List.takeWhile_cons]
        by_cases same : first = char
        · subst same
          simp
        · have other : (first == char) = false := beq_eq_false_iff_ne.2 same
          have differs : (first != char) = true := bne_iff_ne.2 same
          rw [other, differs, inductionHypothesis]
          by_cases member : char ∈ rest <;> simp [member, Ne.symm same]
  rw [found]
  split <;> rfl

namespace UriPath

theorem toInt_slash : ∀ char, (toInt char == code '/') = (char == byte '/') := by
  apply octet_forall
  decide

theorem validLoop_eq (path : Text) : loop path (validPass path) (0, -1) = .ok (Http.UriPath.validLoop path (-1)) := by
  refine loop_eq Prod.fst (fun now => .ok (Http.UriPath.validLoop (path.drop now.1) now.2)) fun now => ?_
  obtain ⟨i, last⟩ := now
  rw [validPass]
  by_cases inside : i < path.length
  · have rest := drop_inside inside
    rw [if_pos inside, charAt_inside (Nat.le_of_lt inside), ok_bind]
    dsimp only
    rw [toInt_slash]
    generalize Uri.charAt path i = char at rest
    cases literal : uriUnreservedCharacter (toInt char) || uriSubcomponentDelimiter (toInt char) ||
        toInt char ∈ "@:".toList.map code with
    | true =>
        refine .goes trivial (Nat.sub_succ_lt_self _ _ inside) ?_
        dsimp only
        rw [rest, Http.UriPath.validLoop.eq_def]
        simp only [literal, if_true]
    | false =>
        cases slash : char == byte '/' && last != code '/' with
        | true =>
            refine .goes trivial (Nat.sub_succ_lt_self _ _ inside) ?_
            dsimp only
            rw [rest, Http.UriPath.validLoop.eq_def]
            simp only [literal, slash, if_true, Bool.false_eq_true, if_false]
        | false =>
            rw [if_neg Bool.false_ne_true, if_neg Bool.false_ne_true, uriPercentEncoded_inside inside]
            cases escaped : Http.uriPercentEncoded (path.drop i) with
            | false =>
                refine .ends (congrArg _ ?_)
                dsimp only
                rw [rest] at escaped ⊢
                rw [Http.UriPath.validLoop.eq_def]
                match path.drop (i + 1), escaped with
                | [], _ | [_], _ => simp only [literal, slash, Bool.false_eq_true, if_false]
                | first :: second :: more, escaped =>
                    simp only [literal, slash, escaped, Bool.false_eq_true, if_false, Bool.false_and]
            | true =>
                obtain ⟨first, second, shape, -, -⟩ := escape_digits escaped
                obtain rfl : char = byte '%' := (List.cons.inj (rest.symm.trans shape)).1
                rw [ok_bind, if_pos rfl, charAt_escape shape]
                refine .goes trivial (by dsimp only; omega) ?_
                dsimp only
                rw [shape] at escaped ⊢
                rw [Http.UriPath.validLoop.eq_def]
                simp only [literal, slash, escaped, Bool.false_eq_true, if_false, Bool.true_and]
  · rw [if_neg inside]
    refine .ends ?_
    simp [List.drop_eq_nil_of_le (not_lt.1 inside), Http.UriPath.validLoop]

theorem isValid_eq (path : Text) : isValid path = .ok (Http.UriPath.isValid path) := by
  rw [isValid, Http.UriPath.isValid, validLoop_eq]
  cases path with
  | nil => rfl
  | cons first rest =>
      cases rest with
      | nil =>
          rw [charAt_inside (Nat.zero_le _)]
          change (if (first == byte '/') = true then _ else _) = Except.ok (([first] == [byte '/']) || _)
          have same : ([first] == [byte '/']) = (first == byte '/') := Bool.and_true _
          rw [same]
          cases first == byte '/' <;> rfl
      | cons second rest =>
          have long : (first :: second :: rest == [byte '/']) = false := Bool.and_false _
          rw [long]
          rfl

/-- More fuel than characters changes nothing. -/
theorem pieces_fuel (rest : Text) {fuel : Nat} (enough : rest.length ≤ fuel) :
    Http.UriPath.pieces (fuel + 1) rest = Http.UriPath.pieces fuel rest := by
  induction fuel generalizing rest with
  | zero =>
      rw [List.length_eq_zero_iff.1 (Nat.le_zero.1 enough)]
      rfl
  | succ fuel inductionHypothesis =>
      by_cases filled : rest = []
      · rw [filled]
        rfl
      · rw [Http.UriPath.pieces_step filled, Http.UriPath.pieces_step filled, inductionHypothesis]
        rw [List.length_drop]
        omega

theorem segments_eq (p : Text) (slashAtStart : Bool) (si : Nat) (segments : List Text) :
    loop p (segmentPass p slashAtStart) (si, segments) =
      .ok ((Http.UriPath.pieces p.length (p.drop si)).foldl (Http.UriPath.addSegment slashAtStart) segments) := by
  refine loop_eq Prod.fst (fun now =>
    .ok ((Http.UriPath.pieces p.length (p.drop now.1)).foldl (Http.UriPath.addSegment slashAtStart) now.2)) fun now => ?_
  obtain ⟨si, segments⟩ := now
  rw [segmentPass]
  by_cases inside : si < p.length
  · have filled : p.drop si ≠ [] := by
      rw [Ne, List.drop_eq_nil_iff]
      omega
    obtain ⟨fuel, long⟩ : ∃ fuel, p.length = fuel + 1 := ⟨p.length - 1, by omega⟩
    have step : Http.UriPath.pieces p.length (p.drop si) =
        (p.drop si).takeWhile (· != byte '/') ::
          Http.UriPath.pieces p.length (p.drop (si + (((p.drop si).takeWhile (· != byte '/')).length + 1))) := by
      rw [long, Http.UriPath.pieces_step filled, List.drop_drop, pieces_fuel]
      rw [List.length_drop]
      omega
    rw [if_pos inside, findFirstOf_eq]
    by_cases slash : byte '/' ∈ p.drop si
    · rw [if_pos slash]
      dsimp only
      rw [substr_scan (Nat.le_of_lt inside)]
      refine .goes trivial (by dsimp only; omega) ?_
      dsimp only
      rw [step, List.foldl_cons, Nat.add_assoc]
    · rw [if_neg slash]
      dsimp only
      rw [substrFrom_inside (Nat.le_of_lt inside)]
      refine .goes trivial (by dsimp only; omega) ?_
      dsimp only
      have ends : p.length ≤ si + ((p.drop si).length + 1) := by
        rw [List.length_drop]
        omega
      rw [step, List.foldl_cons, Uri.takeWhile_other slash, List.drop_eq_nil_of_le ends, List.drop_eq_nil_of_le le_rfl]
  · rw [if_neg inside]
    refine .ends ?_
    rw [List.drop_eq_nil_of_le (not_lt.1 inside), Http.UriPath.pieces_nil]
    rfl

/-- A path with characters is decoded to characters, so it has a first and a last one. -/
theorem set_eq (path : UriPath) (filled : string ≠ []) : set path string = ofFault (Http.UriPath.set path string) := by
  rw [set, decode_eq, Http.UriPath.set_pieces]
  cases found : decodeOrThrow UriPath.keeps "invalid path: " string with
  | error fault => rfl
  | ok decoded =>
      have nonempty := decodeKeeping_filled filled (decodeOrThrow_ok.1 found)
      rw [ofFault_ok, ok_bind, back_filled nonempty, ok_bind, front_filled nonempty, ok_bind]
      dsimp only
      rw [segments_eq, ok_bind]
      change _ = Except.ok (path.ontoPieces decoded)
      rw [Http.UriPath.ontoPieces, List.head?_eq_some_head nonempty, List.getLast?_eq_some_getLast nonempty]
      have behind : decoded.drop (if (decoded.head nonempty == byte '/') = true then 1 else 0) =
          if (decoded.head nonempty == byte '/') = true then decoded.drop 1 else decoded := by
        split <;> rfl
      rw [behind]
      rfl

end UriPath

end Components

end Loops

end Checked

end SimpleNFast.Http
