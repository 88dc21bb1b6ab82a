import SimpleNFast.Construction.Json.Layout
import SimpleNFast.Proof.Json.Strings

namespace SimpleNFast.Json

namespace Value

mutual

/-- The bytes of all strings and keys, and one more for each member. -/
def weight : Value → Nat
  | .string content => content.length
  | .object members => membersWeight members
  | .array elements => elementsWeight elements
  | _ => 0

def membersWeight : List (Text × Value) → Nat
  | [] => 0
  | (key, value) :: rest => key.length + value.weight + 1 + membersWeight rest

def elementsWeight : List Value → Nat
  | [] => 0
  | value :: rest => value.weight + elementsWeight rest

end

theorem keyLess_iff (first second : Text) : keyLess first second = true ↔ first < second := by
  rw [keyLess, List.lex_eq_true_iff_lt]

theorem keyLess_irrefl (key : Text) : ¬ keyLess key key = true := by
  rw [keyLess_iff]
  exact List.lt_irrefl key

theorem keyLess_trans {first second third : Text} (less : keyLess first second = true)
    (more : keyLess second third = true) : keyLess first third = true := by
  rw [keyLess_iff] at less more ⊢
  exact List.lt_trans less more

theorem eq_of_not_keyLess {first second : Text} (less : ¬ keyLess first second = true)
    (more : ¬ keyLess second first = true) : first = second := by
  rw [keyLess_iff] at less more
  exact List.le_antisymm (List.not_lt.mp more) (List.not_lt.mp less)

section Insert

variable {key : Text} {value : Value}

/-- A key that is there already changes nothing. -/
theorem insert_present {members : List (Text × Value)} (isMap : IsMap members) (present : key ∈ members.map Prod.fst) :
    insert members key value = members := by
  induction members with
  | nil => cases present
  | cons member rest inductionHypothesis =>
      obtain ⟨first, old⟩ := member
      obtain ⟨above, others⟩ := List.pairwise_cons.mp isMap
      rw [insert]
      rw [List.map_cons, List.mem_cons] at present
      obtain rfl | present := present
      · rw [if_neg (keyLess_irrefl key), if_neg (keyLess_irrefl key)]
      · obtain ⟨other, member, same⟩ := List.mem_map.mp present
        have less : keyLess first key = true := same ▸ above other member
        have notMore : ¬ keyLess key first = true := fun more => keyLess_irrefl key (keyLess_trans more less)
        rw [if_neg notMore, if_pos less, inductionHypothesis others present]

/-- The keys after an insertion. -/
theorem mem_keys_insert (members : List (Text × Value)) (other : Text) :
    other ∈ (insert members key value).map Prod.fst ↔ other = key ∨ other ∈ members.map Prod.fst := by
  induction members with
  | nil => simp [insert]
  | cons member rest inductionHypothesis =>
      obtain ⟨first, old⟩ := member
      rw [insert]
      split
      · simp
      · split
        · rw [List.map_cons, List.mem_cons, inductionHypothesis, List.map_cons, List.mem_cons]
          tauto
        · rename_i notLess notMore
          rw [eq_of_not_keyLess notLess notMore]
          simp

theorem insert_isMap {members : List (Text × Value)} (isMap : IsMap members) : IsMap (insert members key value) := by
  induction members with
  | nil => exact List.pairwise_singleton _ _
  | cons member rest inductionHypothesis =>
      obtain ⟨first, old⟩ := member
      obtain ⟨above, others⟩ := List.pairwise_cons.mp isMap
      rw [insert]
      split
      · rename_i less
        refine List.pairwise_cons.mpr ⟨?_, isMap⟩
        intro other inside
        obtain rfl | inside := List.mem_cons.mp inside
        · exact less
        · exact keyLess_trans less (above other inside)
      split
      · rename_i more
        refine List.pairwise_cons.mpr ⟨?_, inductionHypothesis others⟩
        intro other inside
        obtain same | inside := (mem_keys_insert rest other.1).mp (List.mem_map_of_mem inside)
        · rw [same]
          exact more
        · obtain ⟨found, member, same⟩ := List.mem_map.mp inside
          rw [← same]
          exact above found member
      · exact isMap

/-- A new key adds its member. -/
theorem insert_weight {members : List (Text × Value)} (absent : key ∉ members.map Prod.fst) :
    membersWeight (insert members key value) = membersWeight members + (key.length + value.weight + 1) := by
  induction members with
  | nil => simp [insert, membersWeight]
  | cons member rest inductionHypothesis =>
      obtain ⟨first, old⟩ := member
      rw [List.map_cons, List.mem_cons, not_or] at absent
      rw [insert]
      split
      · simp only [membersWeight]
        omega
      split
      · simp only [membersWeight, inductionHypothesis absent.2]
        omega
      · rename_i notLess notMore
        exact absurd (eq_of_not_keyLess notLess notMore) absent.1

theorem insert_weight_le {members : List (Text × Value)} (isMap : IsMap members) :
    membersWeight (insert members key value) ≤ membersWeight members + (key.length + value.weight + 1) := by
  by_cases present : key ∈ members.map Prod.fst
  · rw [insert_present isMap present]
    omega
  · rw [insert_weight present]

/-- The greatest key goes to the end. -/
theorem insert_last {members : List (Text × Value)} (below : ∀ member ∈ members, keyLess member.1 key = true) :
    insert members key value = members ++ [(key, value)] := by
  induction members with
  | nil => rfl
  | cons member rest inductionHypothesis =>
      obtain ⟨first, old⟩ := member
      obtain ⟨less, others⟩ := List.forall_mem_cons.mp below
      have notMore : ¬ keyLess key first = true := fun more => keyLess_irrefl key (keyLess_trans more less)
      rw [insert, if_neg notMore, if_pos less, inductionHypothesis others]
      rfl

end Insert

/-- The members of a map that are inserted one after the other. -/
def collect (done members : List (Text × Value)) : List (Text × Value) :=
  members.foldl (fun members member => insert members member.1 member.2) done

theorem collect_weight_le (members : List (Text × Value)) {done : List (Text × Value)} (isMap : IsMap done) :
    membersWeight (collect done members) ≤ membersWeight done + membersWeight members := by
  induction members generalizing done with
  | nil => exact le_refl _
  | cons member rest inductionHypothesis =>
      obtain ⟨key, value⟩ := member
      have first := @insert_weight_le key value _ isMap
      have others := inductionHypothesis (@insert_isMap key value _ isMap)
      rw [membersWeight]
      change membersWeight (collect (insert done key value) rest) ≤ _
      omega

/-- The members of a map come back in their order. -/
theorem collect_isMap (members : List (Text × Value)) {done : List (Text × Value)} (isMap : IsMap (done ++ members)) :
    collect done members = done ++ members := by
  induction members generalizing done with
  | nil => exact (List.append_nil done).symm
  | cons member rest inductionHypothesis =>
      obtain ⟨key, value⟩ := member
      have below : ∀ member ∈ done, keyLess member.1 key = true :=
        fun member inside => (List.pairwise_append.mp isMap).2.2 member inside (key, value) List.mem_cons_self
      change collect (insert done key value) rest = _
      rw [insert_last below, inductionHypothesis (by rwa [List.append_assoc]), List.append_assoc]
      rfl

end Value

theorem stringUnescape_unescaped {string : Text} (unescaped : Value.Unescaped string) :
    stringUnescape string = .ok string := by
  have loop : ∀ fuel, string.length < fuel → unescapeLoop fuel string = .ok string := by
    induction string with
    | nil =>
        intro fuel enough
        obtain ⟨fuel, rfl⟩ := Nat.exists_eq_succ_of_ne_zero (Nat.ne_of_gt enough)
        rfl
    | cons octet rest inductionHypothesis =>
        intro fuel enough
        rw [Value.Unescaped, List.mem_cons, not_or] at unescaped
        obtain ⟨plain, others⟩ := unescaped
        obtain ⟨fuel, rfl⟩ := Nat.exists_eq_succ_of_ne_zero (Nat.ne_of_gt (Nat.zero_lt_of_lt enough))
        rw [unescapeLoop_plain (Ne.symm plain), inductionHypothesis others fuel (by simpa using enough)]
        rfl
  exact loop _ (Nat.lt_succ_self _)

/-- A string without a backslash is not changed when it is unescaped, and another one gets shorter. -/
theorem stringUnescape_length (string : Text) :
    (Value.Unescaped string → stringUnescape string = .ok string) ∧
      ∀ content, stringUnescape string = .ok content →
        content.length ≤ string.length ∧ (¬ Value.Unescaped string → content.length < string.length) := by
  refine ⟨stringUnescape_unescaped, fun found same => ?_⟩
  obtain ⟨content, ran, ⟨backslash, shorter⟩ | ⟨none, rfl⟩⟩ | ⟨what, ran⟩ := stringUnescape_total string
  · rw [ran] at same
    cases same
    exact ⟨shorter.le, fun _ => shorter⟩
  · rw [ran] at same
    cases same
    exact ⟨le_refl _, fun backslash => absurd none backslash⟩
  · rw [ran] at same
    cases same

end SimpleNFast.Json
