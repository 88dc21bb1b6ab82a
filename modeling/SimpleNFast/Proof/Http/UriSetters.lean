import SimpleNFast.Construction.Http.UriSetters
import SimpleNFast.Proof.Http.UriLiterals

set_option maxRecDepth 100000

namespace SimpleNFast.Http

namespace Setting

variable {object value : Type}

theorem run_modify (change : object → object) (before : object) :
    ExceptT.run (modify change : Setting object Unit) before = (.ok (), change before) := rfl

theorem run_bind (first : Setting object value) (next : value → Setting object Unit) (before : object) :
    ExceptT.run (first >>= next) before = match ExceptT.run first before with
      | (.ok found, after) => ExceptT.run (next found) after
      | (.error fault, after) => (.error fault, after) := by
  change (match ExceptT.run first before with
    | (result, after) => (ExceptT.bindCont next result) after) = _
  cases ExceptT.run first before with
  | mk result after =>
      cases result with
      | ok found => rfl
      | error fault => rfl

theorem run_forM {item : Type} (items : List item) (change : item → object → object) (before : object) :
    ExceptT.run (items.forM fun item => (modify (change item) : Setting object Unit)) before =
      (.ok (), items.foldl (fun before item => change item before) before) := by
  induction items generalizing before with
  | nil => rfl
  | cons first items inductionHypothesis =>
      change ExceptT.run ((modify (change first) : Setting object Unit) >>= fun _ =>
        items.forM fun item => modify (change item)) before = _
      rw [run_bind, run_modify, List.foldl_cons]
      exact inductionHypothesis (change first before)

end Setting

namespace UriPath

variable {path : UriPath} {string decoded : Text}

theorem foldl_segments (segments : List Text) (path : UriPath) :
    segments.foldl (fun path segment => { path with segments := addSegment path.slashAtStart path.segments segment })
      path = { path with segments := segments.foldl (addSegment path.slashAtStart) path.segments } := by
  induction segments generalizing path with
  | nil => rfl
  | cons first segments inductionHypothesis =>
      rw [List.foldl_cons, inductionHypothesis]
      rfl

/-- The statements of `set` do what the function does, and the first one throws before anything is written. -/
theorem setMembers_run (string : Text) (path : UriPath) :
    ExceptT.run (setMembers string) path = match path.set string with
      | .ok later => (.ok (), later)
      | .error fault => (.error fault, path) := by
  rw [set_pieces, setMembers]
  cases found : decodeOrThrow keeps "invalid path: " string with
  | error fault => rfl
  | ok decoded =>
      have given : ExceptT.run (MonadExcept.ofExcept (Except.ok decoded) : Setting UriPath Text) path =
        (.ok decoded, path) := rfl
      change _ = (Except.ok (), path.ontoPieces decoded)
      rw [Setting.run_bind, given, ontoPieces]
      dsimp only
      cases ends : decoded.getLast? == some (byte '/') <;> cases begins : decoded.head? == some (byte '/') <;>
        simp only [Setting.run_bind, Setting.run_modify, Setting.run_forM, foldl_segments, Bool.or_true, Bool.or_false,
          if_true, Bool.false_eq_true, if_false] <;>
        split <;> rfl

theorem walk_remaining_iff (path : UriPath) (decoded : Text) :
    Move.walk path.segments ((parts decoded).map move) = remaining decoded ↔
      path.segments.length ≤ Move.rises ((parts decoded).map move) := by
  rw [Move.walk_eq, remaining, List.append_left_eq_self, List.take_eq_nil_iff]
  constructor
  · rintro (none | empty)
    · omega
    · rw [empty]
      exact Nat.zero_le _
  · exact fun high => .inl (by omega)

/-- The segments of an earlier path do not show when it is empty or the new path climbs over it. -/
theorem ontoPieces_segments_iff (path : UriPath) (decoded : Text)
    (start : (path.slashAtStart || decoded.head? == some (byte '/')) = (decoded.head? == some (byte '/'))) :
    (path.ontoPieces decoded).segments = (normal decoded).segments ↔ path.segments = [] ∨
      decoded.head? = some (byte '/') ∧ path.segments.length ≤ Move.rises ((parts decoded).map move) := by
  rw [ontoPieces_segments, start, normal]
  dsimp only
  cases begins : decoded.head? == some (byte '/') with
  | true =>
      rw [if_pos rfl, if_pos rfl, walk_remaining_iff]
      refine ⟨fun high => .inr ⟨beq_iff_eq.1 begins, high⟩, ?_⟩
      rintro (none | ⟨-, high⟩)
      · rw [none]
        exact Nat.zero_le _
      · exact high
  | false =>
      rw [if_neg Bool.false_ne_true, if_neg Bool.false_ne_true, List.append_left_eq_self]
      exact ⟨.inl, fun cases => cases.resolve_right fun both => beq_eq_false_iff_ne.1 begins both.1⟩

/-- An earlier path does not show exactly when its flags, its segments and its text fit the new one. -/
theorem ontoPieces_iff (path : UriPath) (decoded : Text) : path.ontoPieces decoded = normal decoded ↔ path.Fits decoded := by
  have flag (old new : Bool) : (old || new) = new ↔ (old = true → new = true) := by cases old <;> cases new <;> simp
  have written : (path.ontoPieces decoded).component = if (path.ontoPieces decoded).segments = [] then path.component
      else segmentsToPath (path.ontoPieces decoded).segments (path.ontoPieces decoded).slashAtStart
        (path.ontoPieces decoded).slashAtEnd := by
    simp only [← List.isEmpty_iff]
    rfl
  constructor
  · intro same
    have start : (path.slashAtStart || decoded.head? == some (byte '/')) = (decoded.head? == some (byte '/')) :=
      congrArg slashAtStart same
    have ends : (path.slashAtEnd || decoded.getLast? == some (byte '/')) = (decoded.getLast? == some (byte '/')) :=
      congrArg slashAtEnd same
    refine ⟨fun old => beq_iff_eq.1 ((flag _ _).1 start old), fun old => beq_iff_eq.1 ((flag _ _).1 ends old),
      (ontoPieces_segments_iff path decoded start).1 (congrArg segments same), ?_⟩
    rw [or_iff_not_imp_right, not_not]
    intro none
    rw [same, if_pos none] at written
    rw [← written, normal_component, none]
  · intro fits
    have start := (flag path.slashAtStart (decoded.head? == some (byte '/'))).2 fun old =>
      beq_iff_eq.2 (fits.slashAtStart old)
    have ends := (flag path.slashAtEnd (decoded.getLast? == some (byte '/'))).2 fun old =>
      beq_iff_eq.2 (fits.slashAtEnd old)
    have segments := (ontoPieces_segments_iff path decoded start).2 fits.segments
    have component : (path.ontoPieces decoded).component = (normal decoded).component := by
      rw [written, segments]
      by_cases none : (normal decoded).segments = []
      · rw [if_pos none, (normal_component decoded).2 none]
        exact fits.component.resolve_right (not_not.2 none)
      · rw [if_neg none]
        change segmentsToPath _ (path.slashAtStart || decoded.head? == some (byte '/'))
          (path.slashAtEnd || decoded.getLast? == some (byte '/')) = _
        rw [start, ends]
        rfl
    calc path.ontoPieces decoded
        = ⟨(path.ontoPieces decoded).component, decoded, (path.ontoPieces decoded).segments,
            path.slashAtStart || decoded.head? == some (byte '/'),
            path.slashAtEnd || decoded.getLast? == some (byte '/')⟩ := rfl
      _ = ⟨(normal decoded).component, decoded, (normal decoded).segments, decoded.head? == some (byte '/'),
            decoded.getLast? == some (byte '/')⟩ := by rw [component, segments, start, ends]
      _ = normal decoded := rfl

end UriPath

namespace SetCall

variable {call : SetCall} {calls : List SetCall} {uri : Uri}

theorem setMember_run (program : Except Fault Text) (write : Text → Uri → Uri) (uri : Uri) :
    ExceptT.run (Uri.setMember program write) uri = match program with
      | .ok value => (.ok (), write value uri)
      | .error fault => (.error fault, uri) := by
  cases program <;> rfl

theorem setPath_run (string : Text) (uri : Uri) :
    ExceptT.run (Uri.setPath string) uri = match uri.path.set string with
      | .ok path => (.ok (), { uri with path })
      | .error fault => (.error fault, uri) := by
  change ((ExceptT.run (UriPath.setMembers string) uri.path).1,
    ({ uri with path := (ExceptT.run (UriPath.setMembers string) uri.path).2 } : Uri)) = _
  rw [UriPath.setMembers_run]
  cases uri.path.set string <;> rfl

/-- A call that throws changes nothing. -/
structure Refused (call : SetCall) : Prop where
  run : ∃ fault, ∀ uri, call.run uri = (.error fault, uri)
  path : call.component = .path → decodeKeeping UriPath.keeps call.value = none

/-- A call that returns changes its component only, and it replaces all but a path. -/
structure Accepted (call : SetCall) : Prop where
  run : ∀ uri, (call.run uri).1 = .ok ()
  frame : ∀ uri other, other ≠ call.component → UriComponent.Same other (call.run uri).2 uri
  replaces : ∀ uri, call.component.Same (call.run uri).2 (call.run .empty).2 ↔
    (call.component = .path → uri.path.Harmless call.value)

theorem member_cases {program : Except Fault Text} {write : Text → Uri → Uri}
    (perform : call.perform = Uri.setMember program write) (other : call.component ≠ .path)
    (same : ∀ value first second, call.component.Same (write value first) (write value second))
    (frame : ∀ value uri component, component ≠ call.component → UriComponent.Same component (write value uri) uri) :
    call.Refused ∨ call.Accepted := by
  have done (uri : Uri) : call.run uri = ExceptT.run (Uri.setMember program write) uri := by rw [run, perform]
  simp only [setMember_run] at done
  cases program with
  | error fault => exact .inl ⟨⟨fault, done⟩, fun path => absurd path other⟩
  | ok value =>
      refine .inr ⟨fun uri => by rw [done], fun uri component different => ?_, fun uri => ?_⟩
      · rw [done]
        exact frame value uri component different
      · rw [done, done]
        exact iff_of_true (same value uri .empty) fun path => absurd path other

theorem path_cases (path : call.component = .path) : call.Refused ∨ call.Accepted := by
  have perform (uri : Uri) : call.run uri = match uri.path.set call.value with
      | .ok path => (.ok (), { uri with path })
      | .error fault => (.error fault, uri) := by
    rw [run, SetCall.perform, path]
    exact setPath_run call.value uri
  cases found : decodeKeeping UriPath.keeps call.value with
  | none =>
      refine .inl ⟨⟨.badUri (text "invalid path: " ++ call.value), fun uri => ?_⟩, fun _ => found⟩
      rw [perform, UriPath.set_pieces, decodeOrThrow, found]
      rfl
  | some decoded =>
      have done (uri : Uri) : call.run uri = (.ok (), { uri with path := uri.path.ontoPieces decoded }) := by
        rw [perform, UriPath.set_pieces, decodeOrThrow, found]
        rfl
      refine .inr ⟨fun uri => by rw [done], fun uri component different => ?_, fun uri => ?_⟩
      · rw [done]
        rw [path] at different
        cases component with
        | path => exact absurd rfl different
        | _ => rfl
      · rw [done, done, path]
        change uri.path.ontoPieces decoded = UriPath.empty.ontoPieces decoded ↔ _
        rw [UriPath.ontoPieces_empty, UriPath.ontoPieces_iff]
        constructor
        · rintro fits - other same
          rw [found] at same
          cases same
          exact fits
        · exact fun harmless => harmless rfl decoded found

theorem call_cases (call : SetCall) : call.Refused ∨ call.Accepted := by
  obtain ⟨component, value, filled⟩ := call
  cases component with
  | path => exact path_cases rfl
  | _ =>
      refine member_cases rfl nofun (fun _ _ _ => rfl) fun value uri component different => ?_
      cases component with
      | _ => first | rfl | exact absurd rfl different

theorem final_snoc (uri : Uri) (calls : List SetCall) (call : SetCall) :
    final uri (calls ++ [call]) = (call.run (final uri calls)).2 := by
  rw [final, List.foldl_append]
  rfl

theorem outcomes_snoc (uri : Uri) (calls : List SetCall) (call : SetCall) :
    outcomes uri (calls ++ [call]) = outcomes uri calls ++ [(call, (call.run (final uri calls)).1)] := by
  induction calls generalizing uri with
  | nil => rfl
  | cons first calls inductionHypothesis =>
      rw [List.cons_append, outcomes, inductionHypothesis, outcomes]
      rfl

theorem lastSuccessful_snoc (component : UriComponent) (uri : Uri) (calls : List SetCall) (call : SetCall) :
    lastSuccessful component uri (calls ++ [call]) =
      if (call.component == component && (call.run (final uri calls)).1.isOk) = true then some call
      else lastSuccessful component uri calls := by
  rw [lastSuccessful, outcomes_snoc, List.filter_append, List.filter_singleton]
  dsimp only
  cases call.component == component && (call.run (final uri calls)).1.isOk with
  | true =>
      rw [cond_true, List.getLast?_concat, if_pos rfl]
      rfl
  | false =>
      rw [cond_false, List.append_nil, if_neg Bool.false_ne_true]
      rfl

/-- The last call keeps what holds of the others unless something of an earlier path is left. -/
theorem replaced_snoc (replaced : Replaced uri calls) :
    Replaced uri (calls ++ [call]) ↔ (call.component = .path → (final uri calls).path.Harmless call.value) := by
  have symm {component : UriComponent} {first second third : Uri} (same : component.Same first second) :
      component.Same first third ↔ component.Same second third := by
    cases component with
    | _ => exact ⟨fun other => same.symm.trans other, fun other => same.trans other⟩
  obtain ⟨⟨fault, refused⟩, path⟩ | ⟨accepted, frame, replaces⟩ := call.call_cases
  · refine iff_of_true (fun component => ?_) fun isPath decoded found => ?_
    · rw [lastSuccessful_snoc, final_snoc, refused, Except.isOk, Except.toBool, Bool.and_false,
        if_neg Bool.false_ne_true]
      exact replaced component
    · rw [path isPath] at found
      cases found
  · rw [← replaces]
    have last : (call.component == call.component && (call.run (final uri calls)).1.isOk) = true := by
      rw [accepted]
      simp [Except.isOk, Except.toBool]
    constructor
    · intro all
      have own := all call.component
      rw [lastSuccessful_snoc, if_pos last, final_snoc] at own
      exact own
    · intro own component
      by_cases same : component = call.component
      · subst same
        rw [lastSuccessful_snoc, if_pos last, final_snoc]
        exact own
      · have other : ¬ (call.component == component && (call.run (final uri calls)).1.isOk) = true := by
          rw [Bool.and_eq_true, not_and]
          exact fun equal => absurd (beq_iff_eq.1 equal).symm same
        rw [lastSuccessful_snoc, if_neg other, final_snoc, symm (frame (final uri calls) component same)]
        exact replaced component

/-- In a run of setters each component is what its last successful setter gives on a fresh URI, in every state,
exactly when no path is set over a path of which something is left. -/
theorem replaced_iff (uri : Uri) (calls : List SetCall) :
    (∀ before, before <+: calls → Replaced uri before) ↔
      ∀ before call, before ++ [call] <+: calls → call.component = .path →
        (final uri before).path.Harmless call.value := by
  induction calls using List.reverseRecOn with
  | nil =>
      refine iff_of_true (fun before begins => ?_) fun before call begins => ?_
      · rw [List.prefix_nil.1 begins]
        intro component
        cases component with
        | _ => rfl
      · exact absurd (List.prefix_nil.1 begins) (by simp)
  | append_singleton calls last inductionHypothesis =>
      constructor
      · intro replaced before call begins
        have step := (@replaced_snoc call before uri (replaced before ((List.prefix_append _ _).trans begins))).1
        exact step (replaced _ begins)
      · intro harmless before begins
        obtain rfl | begins := List.prefix_concat_iff.1 begins
        · have earlier := inductionHypothesis.2 fun before call begins =>
            harmless before call (begins.trans (List.prefix_append _ _))
          exact (replaced_snoc (earlier calls (List.prefix_refl _))).2 (harmless calls last (List.prefix_refl _))
        · exact inductionHypothesis.2 (fun before call begins =>
            harmless before call (begins.trans (List.prefix_append _ _))) before begins

/-- A second path keeps the segments of the first one. -/
theorem replaced_twice : ¬ ∀ uri calls, Replaced uri calls := by
  intro holds
  have path := holds .empty [⟨.path, text "/a", by decide⟩, ⟨.path, text "b", by decide⟩] .path
  have kept : (final .empty [⟨.path, text "/a", by decide⟩, ⟨.path, text "b", by decide⟩]).path.segments =
      [text "a", text "b"] := by decide
  have last : lastSuccessful .path .empty [⟨.path, text "/a", by decide⟩, ⟨.path, text "b", by decide⟩] =
      some ⟨.path, text "b", by decide⟩ := by rfl
  rw [last] at path
  have same := congrArg UriPath.segments path
  rw [kept] at same
  exact absurd same (by decide)

end SetCall

end SimpleNFast.Http
