import SimpleNFast.Construction.Http.Routes
import SimpleNFast.Proof.Http.ScannerSteps

namespace SimpleNFast.Http
open ForestSearch

/-- The first path of segments that matches the elements. -/
abbrev firstSegments : List Text → List PathSegment → Option (List PathSegment) :=
  firstPath PathSegment.children PathSegment.matches

abbrev lastSegment : List Text → PathSegment → PathSegment := lastSeen PathSegment.children PathSegment.matches

namespace Search

variable {search : Search} {segment : PathSegment} {part : Text} {parts : List Text} {level rest : List PathSegment}

@[simp] theorem enter_seg : (search.enter segment).seg = some segment := rfl

@[simp] theorem enter_stack : (search.enter segment).stack = search.stack := rfl

@[simp] theorem enter_underflow : (search.enter segment).underflow = search.underflow := rfl

@[simp] theorem push_seg : (search.push segment part).seg = search.seg := by
  unfold push
  split <;> rfl

@[simp] theorem push_underflow : (search.push segment part).underflow = search.underflow := by
  unfold push
  split <;> rfl

@[simp] theorem pop_seg : search.pop.seg = search.seg := by
  unfold pop
  split <;> rfl

/-- A search below the entered segment begins with its entry on the stack. -/
def below (search : Search) (segment : PathSegment) (part : Text) : Search := (search.enter segment).push segment part

theorem path_skip (rejects : segment.matches part = false) :
    path (part :: parts) (segment :: rest) search = path (part :: parts) rest (search.enter segment) := by
  simp [path, segments, rejects]

theorem path_found {later : Search} (accepting : segment.matches part = true)
    (found : path parts segment.children (search.below segment part) = (true, later)) :
    path (part :: parts) (segment :: rest) search = (true, later) := by
  unfold below at found
  simp [path, segments, accepting, found]

theorem path_fail {later : Search} (accepting : segment.matches part = true)
    (fails : path parts segment.children (search.below segment part) = (false, later)) :
    path (part :: parts) (segment :: rest) search = path (part :: parts) rest later.pop := by
  unfold below at fails
  simp [path, segments, accepting, fails]

/-- The segment that a failed search in a level looks at last. -/
def looked : List Text → List PathSegment → Option PathSegment
  | [], _ => none
  | part :: parts, level =>
      level.getLast?.map fun child => if child.matches part then lastSegment parts child else child

theorem looked_children : (looked parts segment.children).or (some segment) = some (lastSegment parts segment) := by
  cases parts with
  | nil => rfl
  | cons part parts =>
      simp only [looked, lastSegment, lastSeen]
      cases segment.children.getLast? <;> rfl

/-- The search finds the first path, and the segment that it looked at last is known. -/
theorem path_result (parts : List Text) (level : List PathSegment) (search : Search) :
    (path parts level search).1 = (firstSegments parts level).isSome ∧
      (path parts level search).2.seg =
        match firstSegments parts level with
        | some nodes => nodes.getLast?.or search.seg
        | none => (looked parts level).or search.seg := by
  induction parts generalizing level search with
  | nil => exact ⟨rfl, rfl⟩
  | cons part parts deeper =>
      induction level generalizing search with
      | nil => exact ⟨rfl, rfl⟩
      | cons segment rest others =>
          have final : ∀ (last : PathSegment) (nodes : Option (List PathSegment)), (rest = [] → last =
              if segment.matches part then lastSegment parts segment else segment) →
              (∀ found, nodes = some found → found ≠ []) →
              (match nodes with
                | some nodes => nodes.getLast?.or (some last)
                | none => (looked (part :: parts) rest).or (some last)) =
              (match nodes with
                | some nodes => nodes.getLast?.or search.seg
                | none => (looked (part :: parts) (segment :: rest)).or search.seg) := by
            intro last nodes alone filled
            cases nodes with
            | some found =>
                obtain ⟨first, final, rfl⟩ := List.eq_nil_or_concat' found |>.resolve_left (filled found rfl)
                simp
            | none =>
                cases rest with
                | nil => simp [looked, alone rfl]
                | cons next rest =>
                    obtain ⟨first, final, same⟩ := List.eq_nil_or_concat' (next :: rest) |>.resolve_left (by simp)
                    simp [looked, same, List.getLast?_cons]
          have filled : ∀ found, firstSegments (part :: parts) rest = some found → found ≠ [] := by
            rintro found path rfl
            cases (firstPath_isPath path).2
          cases accepting : segment.matches part with
          | false =>
              obtain ⟨same, seg⟩ := others (search.enter segment)
              rw [path_skip accepting, firstSegments, firstPath_skip accepting]
              refine ⟨same, seg.trans (final segment _ ?_ filled)⟩
              intro _
              rw [accepting]
              rfl
          | true =>
              obtain ⟨same, seg⟩ := deeper segment.children (search.below segment part)
              cases result : path parts segment.children (search.below segment part) with
              | mk found later =>
                  rw [result] at same seg
                  cases first : firstSegments parts segment.children with
                  | some nodes =>
                      rw [first] at same seg
                      cases same
                      rw [path_found accepting result, firstSegments, firstPath_enter accepting first]
                      refine ⟨rfl, ?_⟩
                      simp only at seg
                      rw [seg, below, push_seg, enter_seg]
                      cases nodes <;> simp [List.getLast?_cons]
                  | none =>
                      rw [first] at same seg
                      cases same
                      rw [path_fail accepting result, firstSegments, firstPath_fail first]
                      obtain ⟨same, restSeg⟩ := others later.pop
                      refine ⟨same, restSeg.trans ?_⟩
                      rw [pop_seg]
                      simp only at seg
                      rw [seg, below, push_seg, enter_seg, looked_children]
                      apply final _ _ ?_ filled
                      intro _
                      rw [accepting]
                      rfl

/-- An empty stack that was popped once stays so. -/
theorem path_underflow (parts : List Text) (level : List PathSegment) (search : Search)
    (popped : search.underflow = true) : (path parts level search).2.underflow = true := by
  induction parts generalizing level search with
  | nil => exact popped
  | cons part parts deeper =>
      induction level generalizing search with
      | nil => exact popped
      | cons segment rest others =>
          cases accepting : segment.matches part with
          | false =>
              rw [path_skip accepting]
              exact others _ popped
          | true =>
              have inner := deeper segment.children (search.below segment part) (by simpa [below] using popped)
              cases result : path parts segment.children (search.below segment part) with
              | mk found later =>
                  rw [result] at inner
                  cases found with
                  | true =>
                      rw [path_found accepting result]
                      exact inner
                  | false =>
                      rw [path_fail accepting result]
                      apply others
                      have kept : later.underflow = true := inner
                      unfold pop
                      split
                      · simp [kept]
                      · exact kept

/-- The height of the stack, and whether it was popped when it was empty. -/
def height (search : Search) : Nat × Bool := (search.stack.length, search.underflow)

theorem height_below : (search.below segment part).height =
    (if segment.isParam then [true] else []).foldl replay search.height := by
  unfold below push enter height
  cases segment.isParam <;> rfl

theorem height_pop {last : PathSegment} (seg : search.seg = some last) :
    search.pop.height = (if last.isParam then [false] else []).foldl replay search.height := by
  unfold pop height
  rw [seg, Option.any_some]
  cases param : last.isParam with
  | false => rfl
  | true =>
      cases search.stack with
      | nil => rfl
      | cons entry stack => simp [replay]

/-- The search changes the height of the stack by its moves. -/
theorem path_height (parts : List Text) (level : List PathSegment) (search : Search) :
    (path parts level search).2.height =
      (moves PathSegment.children PathSegment.matches PathSegment.isParam parts level).foldl replay search.height := by
  induction parts generalizing level search with
  | nil => rfl
  | cons part parts deeper =>
      unfold moves
      induction level generalizing search with
      | nil => rfl
      | cons segment rest others =>
          rw [List.foldr_cons]
          cases accepting : segment.matches part with
          | false =>
              rw [path_skip accepting, if_neg (by simp)]
              exact others _
          | true =>
              have inner := deeper segment.children (search.below segment part)
              obtain ⟨found, last⟩ := path_result parts segment.children (search.below segment part)
              cases result : path parts segment.children (search.below segment part) with
              | mk fine later =>
                  rw [result] at inner found last
                  rw [height_below] at inner
                  rw [if_pos rfl, List.foldl_append, List.foldl_append, ← inner]
                  cases first : firstSegments parts segment.children with
                  | some segments =>
                      rw [first] at found
                      cases found
                      rw [path_found accepting result, if_pos (Option.isSome_iff_exists.2 ⟨segments, first⟩)]
                      rfl
                  | none =>
                      rw [first] at found last
                      cases found
                      have seg : later.seg = some (lastSegment parts segment) := by
                        simpa only [below, push_seg, enter_seg, looked_children] using last
                      rw [path_fail accepting result, others, if_neg (Option.not_isSome_iff_eq_none.2 first),
                        List.foldl_append,
                        height_pop seg]

/-- The stack after a disciplined search. -/
def stackAfter (stack : List (Text × Text)) (parts : List Text) : Option (List PathSegment) → List (Text × Text)
  | none => stack
  | some segments => entries segments parts ++ stack

theorem stackAfter_length (stack : List (Text × Text)) (found : Option (List PathSegment)) :
    (stackAfter stack parts found).length =
      (found.elim 0 fun segments => (entries segments parts).length) + stack.length := by
  cases found with
  | none => simp [stackAfter]
  | some segments => simp [stackAfter]

/-- The search of a level is disciplined when it begins with one last segment. -/
def DisciplinedFrom (seg : Option PathSegment) (parts : List Text) (level : List PathSegment) : Prop :=
  ∀ stack, (path parts level ⟨seg, stack, false⟩).2.underflow = false ∧
    (path parts level ⟨seg, stack, false⟩).2.stack = stackAfter stack parts (firstSegments parts level)

theorem disciplined_iff : Disciplined parts level ↔ ∀ seg, DisciplinedFrom seg parts level := by
  unfold Disciplined DisciplinedFrom
  apply forall_congr'
  intro seg
  apply forall_congr'
  intro stack
  obtain ⟨found, last⟩ := path_result parts level ⟨seg, stack, false⟩
  unfold firstSegments at found last ⊢
  cases first : firstPath PathSegment.children PathSegment.matches parts level with
  | none =>
      rw [first] at found
      simp [found, stackAfter]
  | some segments =>
      rw [first] at found last
      simp only at last
      simp [found, last, stackAfter]

theorem entries_cons {segments : List PathSegment} :
    entries (segment :: segments) (part :: parts) =
      entries segments parts ++ if segment.isParam then [(segment.name, part)] else [] := by
  unfold entries
  cases param : segment.isParam <;> simp [param]

theorem below_eq {seg : Option PathSegment} {stack : List (Text × Text)} :
    below ⟨seg, stack, false⟩ segment part =
      ⟨some segment, (if segment.isParam then [(segment.name, part)] else []) ++ stack, false⟩ := by
  unfold below push enter
  cases segment.isParam <;> rfl

/-- A disciplined search below a segment that finds nothing ends with the entry of the segment on the stack. -/
theorem below_fail {seg : Option PathSegment} {stack : List (Text × Text)} (disciplined : Disciplined parts segment.children)
    (fails : firstSegments parts segment.children = none) :
    path parts segment.children (below ⟨seg, stack, false⟩ segment part) =
      (false, ⟨some (lastSegment parts segment),
        (if segment.isParam then [(segment.name, part)] else []) ++ stack, false⟩) := by
  rw [below_eq]
  obtain ⟨found, last⟩ := path_result parts segment.children
    ⟨some segment, (if segment.isParam then [(segment.name, part)] else []) ++ stack, false⟩
  obtain ⟨underflow, kept⟩ := disciplined_iff.1 disciplined (some segment)
    ((if segment.isParam then [(segment.name, part)] else []) ++ stack)
  rw [fails] at found last kept
  simp only [looked_children] at last
  generalize path parts segment.children
    ⟨some segment, (if segment.isParam then [(segment.name, part)] else []) ++ stack, false⟩ = result
    at found last underflow kept ⊢
  obtain ⟨result, later, laterStack, popped⟩ := result
  simp only at found last underflow kept
  rw [found, last, underflow, kept]
  rfl

/-- A disciplined search below a segment that finds a path ends with the entries of the whole path. -/
theorem below_found {seg : Option PathSegment} {stack : List (Text × Text)} {segments : List PathSegment}
    (disciplined : Disciplined parts segment.children)
    (found : firstSegments parts segment.children = some segments) :
    (path parts segment.children (below ⟨seg, stack, false⟩ segment part)).1 = true ∧
      (path parts segment.children (below ⟨seg, stack, false⟩ segment part)).2.underflow = false ∧
      (path parts segment.children (below ⟨seg, stack, false⟩ segment part)).2.stack =
        entries (segment :: segments) (part :: parts) ++ stack := by
  rw [below_eq]
  obtain ⟨result, -⟩ := path_result parts segment.children
    ⟨some segment, (if segment.isParam then [(segment.name, part)] else []) ++ stack, false⟩
  obtain ⟨underflow, kept⟩ := disciplined_iff.1 disciplined (some segment)
    ((if segment.isParam then [(segment.name, part)] else []) ++ stack)
  rw [found] at result kept
  refine ⟨result, underflow, kept.trans ?_⟩
  rw [entries_cons, List.append_assoc]
  rfl

/-- A level is disciplined when the searches below its entered segments are and leave with the right mark. -/
theorem level_disciplined (deeper : ∀ segment, Enters PathSegment.children PathSegment.matches part parts level segment →
      Disciplined parts segment.children)
    (same : ∀ segment, Enters PathSegment.children PathSegment.matches part parts level segment →
      firstSegments parts segment.children = none → (lastSegment parts segment).isParam = segment.isParam)
    (seg : Option PathSegment) : DisciplinedFrom seg (part :: parts) level := by
  intro stack
  induction level generalizing seg stack with
  | nil => exact ⟨rfl, rfl⟩
  | cons segment rest others =>
      cases accepting : segment.matches part with
      | false =>
          have passed : segment.matches part = true → firstSegments parts segment.children = none := by
            rw [accepting]
            simp
          rw [path_skip accepting, firstSegments, firstPath_skip accepting]
          exact others (fun segment entered => deeper segment (entered.cons passed))
            (fun segment entered => same segment (entered.cons passed)) (some segment) stack
      | true =>
          have disciplined := deeper segment (.head accepting)
          cases first : firstSegments parts segment.children with
          | some segments =>
              obtain ⟨found, underflow, kept⟩ := below_found disciplined first
              rw [path_found accepting (Prod.ext found rfl), firstSegments, firstPath_enter accepting first]
              exact ⟨underflow, kept⟩
          | none =>
              have mark := same segment (.head accepting) first
              rw [path_fail accepting (below_fail disciplined first), firstSegments, firstPath_fail first]
              have popped : pop ⟨some (lastSegment parts segment),
                  (if segment.isParam then [(segment.name, part)] else []) ++ stack, false⟩ =
                  ⟨some (lastSegment parts segment), stack, false⟩ := by
                unfold pop
                cases param : segment.isParam <;> simp [mark, param]
              rw [popped]
              exact others (fun segment entered => deeper segment (entered.cons fun _ => first))
                (fun segment entered => same segment (entered.cons fun _ => first)) _ stack

/-- A balanced search is disciplined. -/
theorem disciplined_of_balanced
    (balanced : Balanced PathSegment.children PathSegment.matches PathSegment.isParam parts level) :
    Disciplined parts level := by
  rw [disciplined_iff]
  intro seg
  induction parts generalizing level seg with
  | nil => exact fun stack => ⟨rfl, rfl⟩
  | cons part parts deeper =>
      apply level_disciplined
      · intro segment entered
        exact disciplined_iff.2 fun seg => deeper (balanced.deeper entered) seg
      · intro segment entered fails
        exact balanced part parts level segment .start entered fails

/-- A level of parameters never takes more from the stack than it pushed. -/
theorem params_grow (params : ∀ segment ∈ level, segment.isParam = true)
    (deeper : ∀ segment, Enters PathSegment.children PathSegment.matches part parts level segment →
      Disciplined parts segment.children) (seg : Option PathSegment) (stack : List (Text × Text)) :
    (stackAfter stack (part :: parts) (firstSegments (part :: parts) level)).length ≤
      (path (part :: parts) level ⟨seg, stack, false⟩).2.stack.length := by
  induction level generalizing seg stack with
  | nil => exact le_rfl
  | cons segment rest others =>
      have paramsRest := fun other member => params other (List.mem_cons_of_mem segment member)
      cases accepting : segment.matches part with
      | false =>
          have passed : segment.matches part = true → firstSegments parts segment.children = none := by
            rw [accepting]
            simp
          rw [path_skip accepting, firstSegments, firstPath_skip accepting]
          exact others paramsRest (fun segment entered => deeper segment (entered.cons passed)) (some segment) stack
      | true =>
          have disciplined := deeper segment (.head accepting)
          cases first : firstSegments parts segment.children with
          | some segments =>
              obtain ⟨found, -, kept⟩ := below_found disciplined first
              rw [path_found accepting (Prod.ext found rfl), firstSegments, firstPath_enter accepting first, kept]
              exact le_rfl
          | none =>
              have param := params segment List.mem_cons_self
              have others := others paramsRest (fun segment entered => deeper segment (entered.cons fun _ => first))
              rw [path_fail accepting (below_fail disciplined first), firstSegments, firstPath_fail first, param, if_pos rfl]
              cases mark : (lastSegment parts segment).isParam with
              | true =>
                  have popped : pop ⟨some (lastSegment parts segment), [(segment.name, part)] ++ stack, false⟩ =
                      ⟨some (lastSegment parts segment), stack, false⟩ := by
                    simp [pop, mark]
                  rw [popped]
                  exact others _ stack
              | false =>
                  have kept : pop ⟨some (lastSegment parts segment), [(segment.name, part)] ++ stack, false⟩ =
                      ⟨some (lastSegment parts segment), [(segment.name, part)] ++ stack, false⟩ := by
                    simp [pop, mark]
                  rw [kept]
                  refine le_trans ?_ (others _ ([(segment.name, part)] ++ stack))
                  simp only [firstSegments, stackAfter_length, List.length_append, List.length_singleton]
                  omega

/-- The literals of a level come before its parameters. -/
def LiteralsFirst (level : List PathSegment) : Prop :=
  level.Pairwise fun first second => first.isParam = true → second.isParam = true

/-- A disciplined level whose literals come first leaves each entered segment with the right mark. -/
theorem level_balanced (sorted : LiteralsFirst level)
    (deeper : ∀ segment, Enters PathSegment.children PathSegment.matches part parts level segment →
      Disciplined parts segment.children) {seg : Option PathSegment}
    (disciplined : DisciplinedFrom seg (part :: parts) level) {entered : PathSegment}
    (enters : Enters PathSegment.children PathSegment.matches part parts level entered)
    (fails : firstSegments parts entered.children = none) :
    (lastSegment parts entered).isParam = entered.isParam := by
  induction level generalizing seg with
  | nil => cases enters.mem
  | cons segment rest others =>
      obtain ⟨behind, sortedRest⟩ := List.pairwise_cons.1 sorted
      cases accepting : segment.matches part with
      | false =>
          have passed : segment.matches part = true → firstSegments parts segment.children = none := by
            rw [accepting]
            simp
          obtain ⟨-, accepted⟩ | ⟨-, enters⟩ := enters.tail
          · rw [accepting] at accepted
            cases accepted
          · refine others sortedRest (fun segment entered => deeper segment (entered.cons passed))
              (?_ : DisciplinedFrom (some segment) (part :: parts) rest) enters
            intro stack
            have whole := disciplined stack
            rwa [path_skip accepting, firstSegments, firstPath_skip accepting] at whole
      | true =>
          have inner := deeper segment (.head accepting)
          cases first : firstSegments parts segment.children with
          | some segments =>
              obtain ⟨rfl, -⟩ | ⟨passed, -⟩ := enters.tail
              · rw [first] at fails
                cases fails
              · rw [firstSegments, passed accepting] at first
                cases first
          | none =>
              have whole : ∀ stack, _ := fun stack => disciplined stack
              simp only [path_fail accepting (below_fail inner first), firstSegments, firstPath_fail first] at whole
              have same : (lastSegment parts segment).isParam = segment.isParam := by
                cases param : segment.isParam with
                | false =>
                    cases mark : (lastSegment parts segment).isParam with
                    | false => rfl
                    | true =>
                        have popped := (whole []).1
                        rw [path_underflow] at popped
                        · cases popped
                        · simp [pop, mark, param]
                | true =>
                    cases mark : (lastSegment parts segment).isParam with
                    | true => rfl
                    | false =>
                        have kept := (whole []).2
                        simp only [pop, mark, param, Option.any_some, Bool.false_eq_true, if_false, if_true] at kept
                        have longer := params_grow (fun other member => behind other member param)
                          (fun segment entered => deeper segment (entered.cons fun _ => first))
                          (some (lastSegment parts segment)) ([(segment.name, part)] ++ [])
                        rw [kept] at longer
                        simp only [firstSegments, stackAfter_length, List.length_append, List.length_singleton,
                          List.length_nil] at longer
                        omega
              obtain ⟨rfl, -⟩ | ⟨-, enters⟩ := enters.tail
              · exact same
              · refine others sortedRest (fun segment entered => deeper segment (entered.cons fun _ => first))
                  (?_ : DisciplinedFrom (some (lastSegment parts segment)) (part :: parts) rest) enters
                intro stack
                have kept := whole stack
                have popped : pop ⟨some (lastSegment parts segment),
                    (if segment.isParam then [(segment.name, part)] else []) ++ stack, false⟩ =
                    ⟨some (lastSegment parts segment), stack, false⟩ := by
                  unfold pop
                  cases param : segment.isParam <;> simp [same, param]
                rwa [popped] at kept

end Search

section Order

variable {regex : Text → Except Text (Text → Bool)} {handler : Option RequestHandler} {parts path : List Text}
  {level : List PathSegment} {segment : PathSegment}

/-- At each level of a tree the literals come before the parameters. -/
inductive Ordered : List PathSegment → Prop where
  | level {level : List PathSegment} (sorted : Search.LiteralsFirst level)
      (children : ∀ segment ∈ level, Ordered segment.children) : Ordered level

theorem Ordered.sorted (ordered : Ordered level) : Search.LiteralsFirst level := by
  cases ordered with
  | level sorted _ => exact sorted

theorem Ordered.children (ordered : Ordered level) (inside : segment ∈ level) : Ordered segment.children := by
  cases ordered with
  | level _ children => exact children segment inside

theorem Ordered.nil : Ordered [] := .level .nil (by simp)

/-- The name of a parameter is not empty. -/
theorem parameter_name {element name value : Text}
    (read : PathSegment.parameter element = .ok (some (name, value))) : name ≠ [] := by
  unfold PathSegment.parameter at read
  cases run : Scanner.readPathParameter ⟨1, element.length - 1, element⟩ with
  | error fault =>
      rw [run] at read
      cases read
  | ok pair =>
      obtain ⟨found, finish⟩ := pair
      rw [run] at read
      cases read
      obtain ⟨_, _, _, rest⟩ := Scan.eq_ok_of_bind run
      obtain ⟨token, _, _, rest⟩ := Scan.eq_ok_of_bind rest
      split at rest
      · cases rest
      · rename_i filled
        have same : name = token := by
          obtain ⟨_, _, _, rest⟩ := Scan.eq_ok_of_bind rest
          obtain ⟨_, _, _, rest⟩ := Scan.eq_ok_of_bind rest
          split at rest
          · obtain ⟨_, _, _, rest⟩ := Scan.eq_ok_of_bind rest
            obtain ⟨_, _, _, rest⟩ := Scan.eq_ok_of_bind rest
            obtain ⟨_, _, _, rest⟩ := Scan.eq_ok_of_bind rest
            cases rest
            rfl
          · cases rest
            rfl
        rw [same]
        simpa using filled

/-- A new segment has a regular expression when it is a parameter. -/
theorem create_node {element : Text} (created : PathSegment.create regex element = .ok segment) :
    ∃ name param regexpr, segment = .node name param regexpr [] none ∧ segment.isParam = regexpr.isSome := by
  unfold PathSegment.create at created
  split at created
  · cases read : PathSegment.parameter element with
    | error fault => simp [read, Bind.bind, Except.bind] at created
    | ok found =>
        cases found with
        | none => simp [read, Bind.bind, Except.bind] at created
        | some pair =>
            obtain ⟨param, name⟩ := pair
            simp only [read, Bind.bind, Except.bind] at created
            cases compiled : regex name with
            | error what => simp [compiled] at created
            | ok regexpr =>
                simp only [compiled, pure, Except.pure, Except.ok.injEq] at created
                subst created
                refine ⟨name, param, some regexpr, rfl, ?_⟩
                have filled := parameter_name read
                simpa [PathSegment.isParam, PathSegment.param] using filled
  · split at created
    · cases created
    · simp only [pure, Except.pure, Except.ok.injEq] at created
      subst created
      exact ⟨element, [], none, rfl, rfl⟩

theorem grow_ordered (elements : List Text) (ordered : Ordered level) :
    Ordered (Router.grow regex handler elements level).2 := by
  induction elements generalizing level with
  | nil => exact ordered
  | cons element elements growBelow =>
      unfold Router.grow
      cases created : PathSegment.create regex element with
      | error fault => exact ordered
      | ok segment =>
          obtain ⟨name, param, regexpr, rfl, mark⟩ := create_node created
          have inner := growBelow .nil
          simp only
          split
          · rename_i some
            rw [some] at mark
            refine .level ?_ ?_
            · refine List.pairwise_append.2 ⟨ordered.sorted, List.pairwise_singleton .., ?_⟩
              intro first _ second member _
              rw [List.mem_singleton.1 member]
              exact mark
            · intro other member
              rw [List.mem_append, List.mem_singleton] at member
              obtain member | rfl := member
              · exact ordered.children member
              · exact inner
          · rename_i none
            rw [Bool.not_eq_true] at none
            rw [none] at mark
            refine .level ?_ ?_
            · refine List.pairwise_cons.2 ⟨?_, ordered.sorted⟩
              intro _ _ param
              exact absurd (mark.symm.trans param) (by decide)
            · intro other member
              obtain rfl | member := List.mem_cons.1 member
              · exact inner
              · exact ordered.children member

/-- The first segment with a name is changed. -/
theorem change_some {changed : PathSegment → Except Fault Unit × PathSegment} {name : Text}
    {result : Except Fault Unit} {later : List PathSegment} (did : Router.change changed name level = some (result, later)) :
    ∃ before segment after, level = before ++ segment :: after ∧ segment.name = name ∧
      result = (changed segment).1 ∧ later = before ++ (changed segment).2 :: after := by
  induction level generalizing result later with
  | nil => cases did
  | cons segment rest others =>
      unfold Router.change at did
      split at did
      · rename_i same
        cases did
        exact ⟨[], segment, rest, rfl, by simpa using same, rfl, rfl⟩
      · obtain ⟨⟨restResult, restLater⟩, didRest, pair⟩ := Option.map_eq_some_iff.1 did
        cases pair
        obtain ⟨before, found, after, rfl, same, rfl, rfl⟩ := others didRest
        exact ⟨segment :: before, found, after, rfl, same, rfl, rfl⟩

theorem addBelow_ordered (elements : List Text) (ordered : Ordered level) :
    Ordered (Router.addBelow regex handler elements level).2 := by
  induction elements generalizing level with
  | nil => exact ordered
  | cons element elements addDeeper =>
      unfold Router.addBelow
      simp only
      cases did : Router.change _ element level with
      | none => exact grow_ordered (element :: elements) ordered
      | some pair =>
          obtain ⟨result, later⟩ := pair
          obtain ⟨before, segment, after, rfl, -, -, rfl⟩ := change_some did
          obtain ⟨name, param, regexpr, children, old⟩ := segment
          have sorted := ordered.sorted
          unfold Search.LiteralsFirst at sorted
          simp only [Option.getD_some]
          refine .level ?_ ?_
          · have marks : (before ++ PathSegment.node name param regexpr children old :: after).map PathSegment.isParam =
                (before ++ PathSegment.node name param regexpr
                  (Router.addBelow regex handler elements children).2
                    (if elements.isEmpty then handler else old) :: after).map PathSegment.isParam := by
              simp [PathSegment.isParam, PathSegment.param]
            unfold Search.LiteralsFirst
            rw [← List.pairwise_map (f := PathSegment.isParam)
              (R := fun first second => first = true → second = true)] at sorted ⊢
            rwa [← marks]
          · intro other member
            rw [List.mem_append, List.mem_cons] at member
            obtain member | rfl | member := member
            · exact ordered.children (by simp [member])
            · exact addDeeper (@Ordered.children _ (.node name param regexpr children old) ordered (by simp))
            · exact ordered.children (by simp [member])

theorem Built.ordered {router : Router} (built : Built regex router) : Ordered router.root := by
  induction built with
  | none => exact .nil
  | add before path handler ordered => exact addBelow_ordered _ ordered

end Order

/-- The levels below an ordered level are ordered. -/
theorem Ordered.called {parts laterParts : List Text} {level later : List PathSegment} (ordered : Ordered level)
    (called : Called PathSegment.children PathSegment.matches parts level laterParts later) : Ordered later := by
  induction called with
  | start => exact ordered
  | deeper entered _ deeper => exact deeper (ordered.children entered.mem)

/-- Each search of a search in the tree is disciplined if and only if each entered segment without a path below it has
the mark of the segment that was looked at last. -/
theorem search_disciplined_iff (regex : Text → Except Text (Text → Bool)) (router : Router) (built : Built regex router)
    (parts : List Text) :
    (∀ laterParts level, Called PathSegment.children PathSegment.matches parts router.root laterParts level →
      Disciplined laterParts level) ↔
        Balanced PathSegment.children PathSegment.matches PathSegment.isParam parts router.root := by
  constructor
  · intro disciplined part later level segment called entered fails
    apply Search.level_balanced (built.ordered.called called).sorted ?_ ?_ entered fails
    · intro other enters
      exact disciplined later other.children (called.trans (.deeper enters .start))
    · exact none
    · exact Search.disciplined_iff.1 (disciplined (part :: later) level called) none
  · intro balanced laterParts level called
    apply Search.disciplined_of_balanced
    intro part later below segment deeper
    exact balanced part later below segment (called.trans deeper)

/-- A router with one parameter, whose regular expression matches what begins with a digit. -/
def digitRegex (_ : Text) : Except Text (Text → Bool) := .ok fun part => part.head?.any fun char => isDigit (toInt char)

def digitRouter : Router := (Router.add digitRegex (text "a/\x7bnumber=[0-9]+\x7d") none ⟨[]⟩).2

theorem digitRouter_built : Built digitRegex digitRouter := .add .none _ _

theorem search_disciplined_iff_digit :
    (∀ laterParts level, Called PathSegment.children PathSegment.matches [text "b"] digitRouter.root laterParts level →
      Disciplined laterParts level) ↔
        Balanced PathSegment.children PathSegment.matches PathSegment.isParam [text "b"] digitRouter.root :=
  search_disciplined_iff digitRegex digitRouter digitRouter_built [text "b"]

instance digitRouter_popped : Fact ((Search.path [text "a", text "b"] digitRouter.root .init).2.underflow = true) :=
  ⟨by decide +kernel⟩

/-- The literal pushes nothing, but the parameter below it was looked at last when the search leaves the literal. -/
theorem digitRouter_pops_empty : ¬ ∀ regex router, Built regex router → ∀ parts level laterParts,
    Called PathSegment.children PathSegment.matches parts router.root laterParts level → Disciplined laterParts level := by
  intro claimed
  have disciplined := claimed digitRegex digitRouter digitRouter_built [text "a", text "b"] _ _ .start
  have kept := (disciplined none []).1
  rw [show (⟨none, [], false⟩ : Search) = .init from rfl, digitRouter_popped.out] at kept
  cases kept

end SimpleNFast.Http
