import SimpleNFast.Construction.Http.HeaderMap
import SimpleNFast.Proof.Http.LowerCase

namespace SimpleNFast.Http
namespace HeaderMap

variable {entries : List (Text × Option BaseValue)} {key name : Text} {value : Option BaseValue} {map : HeaderMap}

theorem lower_lower (name : Text) : Headers.lower (Headers.lower name) = Headers.lower name :=
  beq_iff_eq.1 (isLowerCase_lower name)

theorem sameName_lower (name : Text) : sameName (Headers.lower name) = sameName name := by
  funext entry
  rw [sameName, sameName, lower_lower]

theorem lower_isEmpty (name : Text) : (Headers.lower name).isEmpty = name.isEmpty := by
  cases name <;> rfl

/-- The entries have a name. -/
def named (key : Text) (entry : Text × Option BaseValue) : Bool := entry.1 == key

theorem keys_assign (key : Text) (value : Option BaseValue) (entries : List (Text × Option BaseValue)) :
    (assign key value entries).map Prod.fst = entries.map Prod.fst := by
  induction entries with
  | nil => rfl
  | cons entry rest others =>
      rw [assign]
      split
      · rfl
      · rw [List.map_cons, others, List.map_cons]

/-- Entries with other names stay. -/
theorem others_assign (key : Text) (value : Option BaseValue) (entries : List (Text × Option BaseValue)) :
    (assign key value entries).filter (!named key ·) = entries.filter (!named key ·) := by
  induction entries with
  | nil => rfl
  | cons entry rest others =>
      rw [assign]
      split
      · rename_i same
        simp [named, same]
      · rw [List.filter_cons, List.filter_cons, others]

theorem filter_named_none (missing : key ∉ entries.map Prod.fst) : entries.filter (named key) = [] := by
  rw [List.filter_eq_nil_iff]
  intro entry inside same
  exact missing (beq_iff_eq.1 same ▸ List.mem_map_of_mem inside)

/-- The entry with the name gets the value. -/
theorem named_assign (distinct : (entries.map Prod.fst).Nodup) (there : key ∈ entries.map Prod.fst)
    (value : Option BaseValue) : (assign key value entries).filter (named key) = [(key, value)] := by
  induction entries with
  | nil => cases there
  | cons entry rest others =>
      obtain ⟨fresh, later⟩ := List.nodup_cons.1 distinct
      rw [assign]
      split
      · rename_i same
        rw [beq_iff_eq] at same
        rw [same] at fresh ⊢
        rw [List.filter_cons_of_pos (by simp [named]), filter_named_none fresh]
      · rename_i differs
        rw [List.filter_cons_of_neg (by simpa [named] using differs)]
        apply others later
        obtain same | behind := List.mem_cons.1 there
        · exact absurd (beq_iff_eq.2 same.symm) differs
        · exact behind

theorem find_some_iff : (map.find key).isSome = true ↔ key ∈ map.entries.map Prod.fst := by
  rw [find, Option.isSome_map, List.find?_isSome]
  simp

/-- An entry is found by its name when the names are different. -/
theorem find_of_mem {entry : Text × Option BaseValue} (distinct : (map.entries.map Prod.fst).Nodup)
    (inside : entry ∈ map.entries) : map.find entry.1 = some entry.2 := by
  rw [find, Option.map_eq_some_iff]
  obtain ⟨list⟩ := map
  dsimp only at distinct inside ⊢
  induction list with
  | nil => cases inside
  | cons first rest others =>
      obtain ⟨fresh, later⟩ := List.nodup_cons.1 distinct
      obtain rfl | behind := List.mem_cons.1 inside
      · exact ⟨entry, by simp, rfl⟩
      · have differs : (first.1 == entry.1) = false := by
          rw [beq_eq_false_iff_ne]
          intro same
          exact fresh (same ▸ List.mem_map_of_mem behind)
        rw [List.find?_cons, differs]
        exact others later behind

/-- The names are different, in lower case and not empty. -/
structure Lowered (map : HeaderMap) : Prop where
  distinct : (map.entries.map Prod.fst).Nodup
  lower : ∀ key ∈ map.entries.map Prod.fst, Headers.lower key = key
  filled : ∀ key ∈ map.entries.map Prod.fst, key ≠ []

theorem Lowered.empty : Lowered empty where
  distinct := List.nodup_nil
  lower _ inside := absurd inside List.not_mem_nil
  filled _ inside := absurd inside List.not_mem_nil

/-- In such a vector, a name in any case stands for its entry in lower case. -/
theorem Lowered.sameName_eq (lowered : Lowered map) {entry : Text × Option BaseValue} (inside : entry ∈ map.entries)
    (name : Text) : sameName name entry = named (Headers.lower name) entry := by
  rw [sameName, named, lowered.lower entry.1 (List.mem_map_of_mem inside)]

theorem Lowered.filter_same (lowered : Lowered map) (name : Text) :
    map.entries.filter (sameName name) = map.entries.filter (named (Headers.lower name)) :=
  List.filter_congr fun _ inside => lowered.sameName_eq inside name

theorem Lowered.filter_others (lowered : Lowered map) (name : Text) :
    map.entries.filter (!sameName name ·) = map.entries.filter (!named (Headers.lower name) ·) :=
  List.filter_congr fun _ inside => by rw [lowered.sameName_eq inside name]

theorem Lowered.caseInsensitive (lowered : Lowered map) : CaseInsensitive map where
  distinct := by
    have same : map.entries.map (fun entry => Headers.lower entry.1) = map.entries.map Prod.fst :=
      List.map_congr_left fun entry inside => lowered.lower entry.1 (List.mem_map_of_mem inside)
    rw [same]
    exact lowered.distinct
  found entry inside name same := by
    rw [lowered.sameName_eq inside, named, beq_iff_eq] at same
    have filled : name.isEmpty = false := by
      rw [← lower_isEmpty, List.isEmpty_eq_false_iff, ← same]
      exact lowered.filled entry.1 (List.mem_map_of_mem inside)
    have found := find_of_mem lowered.distinct inside
    rw [isSet, get, filled, ← same, found]
    exact ⟨rfl, rfl⟩
  missing name missing := by
    have none : map.find (Headers.lower name) = none := by
      rw [← Option.not_isSome_iff_eq_none, find_some_iff, List.mem_map]
      rintro ⟨entry, inside, same⟩
      have differs := missing entry inside
      rw [lowered.sameName_eq inside, named, beq_eq_false_iff_ne] at differs
      exact differs same
    rw [isSet, get, none]
    refine ⟨Bool.and_false _, ?_⟩
    split
    · exact ⟨_, rfl⟩
    · exact ⟨_, rfl⟩

/-- An entry with a name in lower case gets a value, or it is new. -/
theorem Lowered.after_put (lowered : Lowered map) (name : Text) (filled : name ≠ [])
    (meant : Headers.lower name = name ∨ (map.find (Headers.lower name)).isSome = true) (value : Option BaseValue) :
    Lowered (map.put (Headers.lower name) name value) ∧
      (map.put (Headers.lower name) name value).entries.filter (!sameName name ·) =
        map.entries.filter (!sameName name ·) ∧
      ((map.put (Headers.lower name) name value).entries.filter (sameName name)).map Prod.snd = [value] := by
  have later : Lowered (map.put (Headers.lower name) name value) := by
    unfold put
    split
    · constructor
      · rw [keys_assign]
        exact lowered.distinct
      · rw [keys_assign]
        exact lowered.lower
      · rw [keys_assign]
        exact lowered.filled
    · rename_i missing
      obtain lower | found := meant
      · rw [lower, find_some_iff] at missing
        constructor
        · rw [List.map_append, List.map_singleton, List.nodup_append]
          refine ⟨lowered.distinct, List.nodup_singleton _, ?_⟩
          intro one inside two last same
          rw [List.mem_singleton] at last
          rw [same, last] at inside
          exact missing inside
        · intro key inside
          rw [List.map_append, List.map_singleton, List.mem_append, List.mem_singleton] at inside
          obtain inside | rfl := inside
          · exact lowered.lower key inside
          · exact lower
        · intro key inside
          rw [List.map_append, List.map_singleton, List.mem_append, List.mem_singleton] at inside
          obtain inside | rfl := inside
          · exact lowered.filled key inside
          · exact filled
      · exact absurd found missing
  refine ⟨later, ?_, ?_⟩
  · rw [later.filter_others, lowered.filter_others]
    unfold put
    split
    · exact others_assign _ _ _
    · rename_i missing
      have lower := meant.resolve_right missing
      rw [List.filter_append, List.filter_singleton]
      simp [named, lower]
  · rw [later.filter_same]
    unfold put
    split
    · rename_i found
      rw [named_assign lowered.distinct (find_some_iff.1 found)]
      rfl
    · rename_i missing
      have lower := meant.resolve_right missing
      rw [find_some_iff] at missing
      rw [List.filter_append, filter_named_none missing, List.nil_append]
      simp [named, lower]

/-- A new value for the entry with a name changes the values at that name only. -/
theorem Lowered.after_assign (lowered : Lowered map) (name : Text) (value : Option BaseValue) :
    Lowered ⟨assign (Headers.lower name) value map.entries⟩ ∧
      (assign (Headers.lower name) value map.entries).filter (!sameName name ·) =
        map.entries.filter (!sameName name ·) := by
  have later : Lowered ⟨assign (Headers.lower name) value map.entries⟩ := by
    constructor
    · rw [keys_assign]
      exact lowered.distinct
    · rw [keys_assign]
      exact lowered.lower
    · rw [keys_assign]
      exact lowered.filled
  refine ⟨later, ?_⟩
  have same := later.filter_others name
  dsimp only at same
  rw [same, lowered.filter_others, others_assign]

theorem erase_named (distinct : (entries.map Prod.fst).Nodup) :
    entries.eraseP (named key) = entries.filter (!named key ·) := by
  induction entries with
  | nil => rfl
  | cons entry rest others =>
      obtain ⟨fresh, later⟩ := List.nodup_cons.1 distinct
      cases same : named key entry with
      | false =>
          rw [List.eraseP_cons_of_neg (by simp [same]), List.filter_cons_of_pos (by simp [same]), others later]
      | true =>
          rw [List.eraseP_cons_of_pos same, List.filter_cons_of_neg (by simp [same]), eq_comm, List.filter_eq_self]
          intro other inside
          rw [Bool.not_eq_eq_eq_not, Bool.not_true, named, beq_eq_false_iff_ne]
          intro equal
          rw [named, beq_iff_eq] at same
          exact fresh (same ▸ equal ▸ List.mem_map_of_mem inside)

/-- The entry with the name goes, and the others stay. -/
theorem Lowered.after_remove (lowered : Lowered map) (name : Text) :
    Lowered ⟨map.entries.eraseP fun entry => entry.1 == Headers.lower name⟩ ∧
      (map.entries.eraseP fun entry => entry.1 == Headers.lower name) =
        map.entries.filter (!sameName name ·) := by
  have erased : (map.entries.eraseP fun entry => entry.1 == Headers.lower name) =
      map.entries.filter (!sameName name ·) := by
    rw [lowered.filter_others]
    exact erase_named lowered.distinct
  refine ⟨?_, erased⟩
  rw [erased]
  have kept : ((map.entries.filter (!sameName name ·)).map Prod.fst).Sublist (map.entries.map Prod.fst) :=
    List.filter_sublist.map Prod.fst
  exact ⟨kept.nodup lowered.distinct, fun key inside => lowered.lower key (kept.subset inside),
    fun key inside => lowered.filled key (kept.subset inside)⟩

/-- What a call leaves when it does not touch the vector. -/
theorem Exact.unchanged {call : HeaderCall} (same : (call.run map).2 = map)
    (updated : ∀ name value stored, call = .update name value → name ≠ [] →
      BaseValue.validate (Headers.lower name) value ≠ .ok stored)
    (replaced : ∀ name value, call = .updateValue name value → name = [])
    (removed : ∀ name, call = .remove name → name = []) : Exact map call where
  others := by rw [same]
  thrown _ _ := same
  updated name value stored equal filled valid := absurd valid (updated name value stored equal filled)
  replaced name value equal filled := absurd (replaced name value equal) filled
  removed name equal filled := absurd (removed name equal) filled

theorem Lowered.run_add (lowered : Lowered map) (name value : Text) :
    Lowered (map.add name value).2 ∧ Exact map (.add name value) := by
  have kept (same : (map.add name value).2 = map) :
      Lowered (map.add name value).2 ∧ Exact map (.add name value) :=
    ⟨by rwa [same], Exact.unchanged same nofun nofun nofun⟩
  by_cases filled : name = []
  · exact kept (by rw [add, filled, List.isEmpty_nil, if_pos rfl])
  · have opened : name.isEmpty = false := List.isEmpty_eq_false_iff.2 filled
    cases valid : BaseValue.validate (Headers.lower name) value with
    | error fault => exact kept (by simp only [add, opened, valid, Bool.false_eq_true, if_false])
    | ok source =>
        cases found : map.find (Headers.lower name) with
        | none =>
            have result : map.add name value = (.ok (), map.put (Headers.lower name) (Headers.lower name) source) := by
              simp only [add, put, opened, valid, found, Bool.false_eq_true, if_false, Option.isSome_none]
            have lower : Headers.lower (Headers.lower name) = Headers.lower name := lower_lower name
            have kind := lowered.after_put (Headers.lower name)
              (by rwa [← List.isEmpty_eq_false_iff, lower_isEmpty]) (.inl lower) (some source)
            rw [lower, sameName_lower] at kind
            refine ⟨by rw [result]; exact kind.1, ?_, ?_, nofun, nofun, nofun⟩
            · rw [HeaderCall.run, result]
              exact kind.2.1
            · intro fault thrown
              rw [HeaderCall.run, result] at thrown
              cases thrown
        | some target =>
            by_cases both : (source.value.isSeq && target.any fun target => target.value.isSeq) = true
            · have result : map.add name value =
                  (.ok (), ⟨assign (Headers.lower name) (target.map fun target => target.append source)
                    map.entries⟩) := by
                simp only [add, opened, valid, found, both, Bool.false_eq_true, if_false, if_true]
              have kind := lowered.after_assign name (target.map fun target => target.append source)
              refine ⟨by rw [result]; exact kind.1, ?_, ?_, nofun, nofun, nofun⟩
              · rw [HeaderCall.run, result]
                exact kind.2
              · intro fault thrown
                rw [HeaderCall.run, result] at thrown
                cases thrown
            · exact kept (by simp only [add, opened, valid, found, both, Bool.false_eq_true, if_false])

theorem Lowered.run_update (lowered : Lowered map) (name value : Text) :
    Lowered (map.update name value).2 ∧ Exact map (.update name value) := by
  by_cases filled : name = []
  · have same : (map.update name value).2 = map := by rw [update, filled, List.isEmpty_nil, if_pos rfl]
    refine ⟨by rwa [same], Exact.unchanged same ?_ nofun nofun⟩
    intro other _ _ equal fresh
    cases equal
    exact absurd filled fresh
  · have opened : name.isEmpty = false := List.isEmpty_eq_false_iff.2 filled
    cases valid : BaseValue.validate (Headers.lower name) value with
    | error fault =>
        have same : (map.update name value).2 = map := by
          simp only [update, opened, valid, Bool.false_eq_true, if_false]
        refine ⟨by rwa [same], Exact.unchanged same ?_ nofun nofun⟩
        intro other _ stored equal _ accepted
        cases equal
        rw [valid] at accepted
        cases accepted
    | ok stored =>
        have result : map.update name value = (.ok (), map.put (Headers.lower name) (Headers.lower name) stored) := by
          simp only [update, opened, valid, Bool.false_eq_true, if_false]
        have lower : Headers.lower (Headers.lower name) = Headers.lower name := lower_lower name
        have kind := lowered.after_put (Headers.lower name)
          (by rwa [← List.isEmpty_eq_false_iff, lower_isEmpty]) (.inl lower) (some stored)
        rw [lower, sameName_lower] at kind
        refine ⟨by rw [result]; exact kind.1, ?_, ?_, ?_, nofun, nofun⟩
        · rw [HeaderCall.run, result]
          exact kind.2.1
        · intro fault thrown
          rw [HeaderCall.run, result] at thrown
          cases thrown
        · intro other _ value equal _ accepted
          cases equal
          rw [valid] at accepted
          cases accepted
          rw [HeaderCall.run, result]
          exact kind.2.2

theorem Lowered.run_updateValue (lowered : Lowered map) (name : Text) (value : Option BaseValue)
    (meant : Meant map (.updateValue name value)) :
    Lowered (map.updateValue name value).2 ∧ Exact map (.updateValue name value) := by
  by_cases filled : name = []
  · have same : (map.updateValue name value).2 = map := by rw [updateValue, filled, List.isEmpty_nil, if_pos rfl]
    refine ⟨by rwa [same], Exact.unchanged same nofun ?_ nofun⟩
    intro other _ equal
    cases equal
    exact filled
  · have opened : name.isEmpty = false := List.isEmpty_eq_false_iff.2 filled
    have result : map.updateValue name value = (.ok (), map.put (Headers.lower name) name value) := by
      simp only [updateValue, opened, Bool.false_eq_true, if_false]
    have kind := lowered.after_put name filled meant value
    refine ⟨by rw [result]; exact kind.1, ?_, ?_, nofun, ?_, nofun⟩
    · rw [HeaderCall.run, result]
      exact kind.2.1
    · intro fault thrown
      rw [HeaderCall.run, result] at thrown
      cases thrown
    · intro other _ equal _
      cases equal
      rw [HeaderCall.run, result]
      exact kind.2.2

theorem Lowered.run_remove (lowered : Lowered map) (name : Text) :
    Lowered (map.remove name).2 ∧ Exact map (.remove name) := by
  by_cases filled : name = []
  · have same : (map.remove name).2 = map := by rw [remove, filled, List.isEmpty_nil, if_pos rfl]
    refine ⟨by rwa [same], Exact.unchanged same nofun nofun ?_⟩
    intro other equal
    cases equal
    exact filled
  · have opened : name.isEmpty = false := List.isEmpty_eq_false_iff.2 filled
    have result : map.remove name =
        (.ok (), ⟨map.entries.eraseP fun entry => entry.1 == Headers.lower name⟩) := by
      rw [remove, opened, if_neg Bool.false_ne_true]
    obtain ⟨later, erased⟩ := lowered.after_remove name
    refine ⟨by rw [result]; exact later, ?_, ?_, nofun, nofun, ?_⟩
    · rw [HeaderCall.run, result]
      dsimp only [HeaderCall.name]
      rw [erased, List.filter_filter]
      simp only [Bool.and_self]
    · intro fault thrown
      rw [HeaderCall.run, result] at thrown
      cases thrown
    · intro other equal _
      cases equal
      rw [HeaderCall.run, result]
      dsimp only
      rw [erased, List.filter_filter, List.filter_eq_nil_iff]
      simp

/-- Each call keeps the names different and in lower case. -/
theorem Lowered.run (lowered : Lowered map) {call : HeaderCall} (meant : Meant map call) :
    Lowered (call.run map).2 ∧ Exact map call := by
  cases call with
  | add name value => exact lowered.run_add name value
  | update name value => exact lowered.run_update name value
  | updateValue name value => exact lowered.run_updateValue name value meant
  | remove name => exact lowered.run_remove name

theorem Run.lowered (run : Run Meant map) : Lowered map := by
  induction run with
  | empty => exact Lowered.empty
  | call _ meant before => exact (before.run meant).1

/-- In every run that sets values under new names in lower case only, the headers are a map whose names have no case, and
each next call changes the entry of its name only. -/
theorem run_caseInsensitive : ∀ map : HeaderMap, Run Meant map →
    CaseInsensitive map ∧ ∀ call : HeaderCall, Meant map call → Exact map call :=
  fun _ run => ⟨run.lowered.caseInsensitive, fun _ meant => (run.lowered.run meant).2⟩

/-- A host is set through its value and again through its text. -/
theorem run_caseInsensitive_host :
    let host : BaseValue := ⟨.hostPort ⟨text "h", 80⟩, []⟩
    let map := (HeaderCall.run empty (.updateValue (text "host") (some host))).2
    CaseInsensitive map ∧ Exact map (.update (text "HOST") (text "other")) :=
  let host : BaseValue := ⟨.hostPort ⟨text "h", 80⟩, []⟩
  let map := (HeaderCall.run empty (.updateValue (text "host") (some host))).2
  have run : Run Meant map := @Run.call _ _ .empty (.updateValue (text "host") (some host)) (.inl (by decide))
  ⟨(run_caseInsensitive map run).1, (run_caseInsensitive map run).2 (.update (text "HOST") (text "other")) trivial⟩

/-- A value that is set under the name `Foo` is not found, and setting it again makes a second entry. -/
theorem run_updateValue_capital :
    let foo : BaseValue := ⟨.strings [text "a"], []⟩
    let once := (HeaderCall.run empty (.updateValue (text "Foo") (some foo))).2
    let twice := (HeaderCall.run once (.updateValue (text "Foo") (some foo))).2
    Run (fun _ _ => True) once ∧ once.isSet (text "Foo") = false ∧ ¬ CaseInsensitive once ∧
      Run (fun _ _ => True) twice ∧ twice.entries = [(text "Foo", some foo), (text "Foo", some foo)] ∧
      ¬ (twice.entries.map fun entry => Headers.lower entry.1).Nodup := by
  intro foo once twice
  have ran : Run (fun _ _ => True) once :=
    @Run.call _ _ .empty (.updateValue (text "Foo") (some foo)) trivial
  have again : Run (fun _ _ => True) twice :=
    @Run.call _ _ ran (.updateValue (text "Foo") (some foo)) trivial
  refine ⟨ran, by decide, ?_, again, by decide, by decide⟩
  intro insensitive
  have found := (insensitive.found (text "Foo", some foo) (List.mem_singleton_self _) (text "Foo") (by decide)).1
  exact absurd found (by decide)

end HeaderMap
end SimpleNFast.Http
