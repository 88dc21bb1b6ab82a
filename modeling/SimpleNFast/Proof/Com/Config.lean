import SimpleNFast.Construction.Com.Config

namespace SimpleNFast

/-- A trailing part is dropped within the second list if something of it stays. -/
theorem rdropWhile_append_kept {item : Type} {drops : item → Bool} (first : List item) {second : List item}
    (kept : second.rdropWhile drops ≠ []) :
    (first ++ second).rdropWhile drops = first ++ second.rdropWhile drops := by
  induction second using List.reverseRecOn with
  | nil => exact absurd rfl kept
  | append_singleton second last hypothesis =>
    rw [← List.append_assoc]
    cases dropped : drops last with
    | false =>
      rw [List.rdropWhile_concat_neg _ _ _ (by simp [dropped]), List.rdropWhile_concat_neg _ _ _ (by simp [dropped]),
        List.append_assoc]
    | true =>
      rw [List.rdropWhile_concat_pos _ _ _ dropped] at kept ⊢
      rw [List.rdropWhile_concat_pos _ _ _ dropped, hypothesis kept]

theorem rdropWhile_append_dropped {item : Type} {drops : item → Bool} (first : List item) {second : List item}
    (dropped : second.rdropWhile drops = []) : (first ++ second).rdropWhile drops = first.rdropWhile drops := by
  induction second using List.reverseRecOn with
  | nil => rw [List.append_nil]
  | append_singleton second last hypothesis =>
    have all := List.rdropWhile_eq_nil_iff.1 dropped
    rw [← List.append_assoc, List.rdropWhile_concat_pos _ _ _ (all last (by simp)), hypothesis]
    exact List.rdropWhile_eq_nil_iff.2 fun item member => all item (by simp [member])

/-- A list without dropped items stays as it is, and so does the start of a longer list. -/
theorem rdropWhile_append_solid {item : Type} {drops : item → Bool} {first : List item} (second : List item)
    (solid : ∀ item ∈ first, drops item = false) :
    (first ++ second).rdropWhile drops = first ++ second.rdropWhile drops := by
  by_cases kept : second.rdropWhile drops = []
  · rw [rdropWhile_append_dropped first kept, kept, List.append_nil]
    exact List.rdropWhile_eq_self_iff.2 fun filled => by simp [solid _ (List.getLast_mem filled)]
  · exact rdropWhile_append_kept first kept

theorem rdropWhile_cons_solid {item : Type} {drops : item → Bool} {head : item} (tail : List item)
    (solid : drops head = false) : (head :: tail).rdropWhile drops = head :: tail.rdropWhile drops := by
  have single : ∀ item ∈ [head], drops item = false := by simpa using solid
  exact rdropWhile_append_solid tail single

/-- The leading and the trailing part can be dropped in both orders. -/
theorem dropWhile_rdropWhile {item : Type} (drops : item → Bool) (list : List item) :
    (list.rdropWhile drops).dropWhile drops = (list.dropWhile drops).rdropWhile drops := by
  induction list with
  | nil => rfl
  | cons head tail hypothesis =>
    cases dropped : drops head with
    | false =>
      have solid := rdropWhile_cons_solid tail dropped
      rw [solid, List.dropWhile_cons_of_neg (by simp [dropped]), List.dropWhile_cons_of_neg (by simp [dropped]), solid]
    | true =>
      rw [List.dropWhile_cons_of_pos dropped, ← hypothesis]
      by_cases kept : tail.rdropWhile drops = []
      · have all := rdropWhile_append_dropped [head] kept
        rw [List.singleton_append, List.rdropWhile_singleton, if_pos dropped] at all
        rw [all, kept]
      · have some := rdropWhile_append_kept [head] kept
        rw [List.singleton_append, List.singleton_append] at some
        rw [some, List.dropWhile_cons_of_pos dropped]

namespace Config

theorem isKey_solid {char : UInt8} (isKey : isKey char = true) : isBlank char = false := by
  simpa using (Bool.and_eq_true_iff.1 isKey).2

/-- The loop over the trailing spaces cuts them off. -/
theorem take_trimmed (buf : Text) (length : Nat) (within : length ≤ buf.length) :
    buf.take (trimmed buf length) = (buf.take length).rdropWhile isBlank := by
  induction length with
  | zero => rfl
  | succ length hypothesis =>
    rw [List.take_succ_eq_append_getElem within, trimmed, List.getD_eq_getElem?_getD, List.getElem?_eq_getElem within,
      Option.getD_some]
    cases blank : isBlank buf[length] with
    | false =>
      rw [List.rdropWhile_concat_neg _ _ _ (by simp [blank]), if_neg (by simp),
        List.take_succ_eq_append_getElem within]
    | true => rw [List.rdropWhile_concat_pos _ _ _ blank, if_pos rfl, hypothesis (by omega)]

/-- The trailing blanks of a line are not part of its key. -/
theorem takeWhile_isKey (shown : Text) : (shown.rdropWhile isBlank).takeWhile isKey = shown.takeWhile isKey ∧
    (shown.rdropWhile isBlank).dropWhile isKey = (shown.dropWhile isKey).rdropWhile isBlank := by
  have solid : ∀ char ∈ shown.takeWhile isKey, isBlank char = false :=
    fun char member => isKey_solid (List.mem_takeWhile_imp member)
  have split := rdropWhile_append_solid (shown.dropWhile isKey) solid
  rw [List.takeWhile_append_dropWhile] at split
  have stops : ((shown.dropWhile isKey).rdropWhile isBlank).takeWhile isKey = [] := by
    cases rest : (shown.dropWhile isKey).rdropWhile isBlank with
    | nil => rfl
    | cons char tail =>
      obtain ⟨blanks, whole⟩ := List.rdropWhile_prefix (p := isBlank) (shown.dropWhile isKey)
      rw [rest, List.cons_append] at whole
      have different := List.head_dropWhile_not (p := isKey) (l := shown) (by simp [← whole])
      simp only [← whole, List.head_cons] at different
      rw [List.takeWhile_cons_of_neg (by simp [different])]
  have all : ∀ char ∈ shown.takeWhile isKey, isKey char = true := fun char => List.mem_takeWhile_imp
  rw [split, List.takeWhile_append_of_pos all, stops, List.append_nil, List.dropWhile_append_of_pos all]
  have same := List.takeWhile_append_dropWhile (p := isKey) (l := (shown.dropWhile isKey).rdropWhile isBlank)
  rw [stops, List.nil_append] at same
  exact ⟨rfl, same⟩

theorem trim_rdropWhile (string : Text) : trim (string.rdropWhile isBlank) = trim string := by
  rw [trim, dropWhile_rdropWhile, List.rdropWhile_idempotent, trim]

/-- The trailing blanks of a line do not change its entry. -/
theorem entry_rdropWhile (line : Text) : entry (line.rdropWhile isBlank) = entry line := by
  simp only [entry, dropWhile_rdropWhile]
  cases shown : line.dropWhile isBlank with
  | nil => rfl
  | cons head tail =>
    have solid : isBlank head = false := by
      have notBlank := List.head_dropWhile_not (p := isBlank) (l := line) (by simp [shown])
      simpa only [shown, List.head_cons] using notBlank
    have start := rdropWhile_cons_solid tail solid
    have sameSkip : ((head :: tail).rdropWhile isBlank = [] ∨
        ((head :: tail).rdropWhile isBlank).head? = some (byte '#')) ↔
        (head :: tail = [] ∨ (head :: tail).head? = some (byte '#')) := by
      simp only [start, List.head?_cons, reduceCtorEq, false_or]
    obtain ⟨sameKey, sameRest⟩ := takeWhile_isKey (head :: tail)
    simp only [sameSkip, sameKey, sameRest, trim_rdropWhile]

/-- The end of a text without trailing blanks has none either. -/
theorem rdropWhile_suffix {string suffix : Text} (ends : suffix <:+ string)
    (solid : string.rdropWhile isBlank = string) : suffix.rdropWhile isBlank = suffix := by
  obtain ⟨start, rfl⟩ := ends
  rw [List.rdropWhile_eq_self_iff] at solid ⊢
  intro filled
  have last := solid (List.append_ne_nil_of_right_ne_nil _ filled)
  rwa [List.getLast_append_of_ne_nil _ filled] at last

theorem trim_suffix {string suffix : Text} (ends : suffix <:+ string) (solid : string.rdropWhile isBlank = string) :
    trim suffix = suffix.dropWhile isBlank := by
  rw [trim, ← dropWhile_rdropWhile, rdropWhile_suffix ends solid]

/-- The six loops over the pointer read the entry of a line. -/
theorem scanLine_entry (kvmap : KvMap) {line : Text} (noNull : 0 ∉ line) :
    scanLine kvmap line = match entry line with
      | none => kvmap
      | some (key, value) => if key = [] then kvmap else kvmap.add key value := by
  have whole : line.takeWhile (· != 0) = line :=
    List.takeWhile_eq_self_iff.2 fun char member => by
      have different : char ≠ 0 := fun same => noNull (same ▸ member)
      simpa using different
  have solid : (line.rdropWhile isBlank).rdropWhile isBlank = line.rdropWhile isBlank :=
    List.rdropWhile_idempotent _ _
  rw [← entry_rdropWhile]
  simp only [scanLine, entry, whole, take_trimmed line _ (Nat.le_refl _), List.take_length]
  have restEnds := (List.dropWhile_suffix isKey).trans (List.dropWhile_suffix (l := line.rdropWhile isBlank) isBlank)
  generalize shown : (line.rdropWhile isBlank).dropWhile isBlank = ptr at restEnds ⊢
  rw [trim_suffix restEnds solid]
  generalize behind : (ptr.dropWhile isKey).dropWhile isBlank = rest
  have behindEnds : rest <:+ line.rdropWhile isBlank := behind ▸ (List.dropWhile_suffix isBlank).trans restEnds
  have signEnds : (if rest.head? = some (byte '=') then rest.tail else rest) <:+ line.rdropWhile isBlank := by
    split
    · exact (List.tail_suffix rest).trans behindEnds
    · exact behindEnds
  rw [trim_suffix signEnds solid]
  by_cases skips : ptr = [] ∨ ptr.head? = some (byte '#')
  · rw [if_pos skips, if_pos skips]
  · rw [if_neg skips, if_neg skips]

/-- A line is read with the newline behind it, and the last one ends with the file. -/
theorem getline_line {line : Text} (short : line.length < 8191) (single : byte '\n' ∉ line) :
    (∀ rest, getline 8192 (line ++ byte '\n' :: rest) = .ok (line, rest)) ∧
      getline 8192 line = .error ⟨true, line.isEmpty⟩ := by
  have inside : ∀ char ∈ line, (char != byte '\n') = true := fun char member => by
    have different : char ≠ byte '\n' := fun same => single (same ▸ member)
    simpa using different
  have fits : line.take (8192 - 1) = line := List.take_of_length_le (by omega)
  constructor
  · intro rest
    have reads : (line ++ byte '\n' :: rest).takeWhile (· != byte '\n') = line := by
      rw [List.takeWhile_append_of_pos inside, List.takeWhile_cons_of_neg (by simp), List.append_nil]
    simp only [getline, reads, fits, List.drop_left, if_true]
  · simp only [getline, List.takeWhile_eq_self_iff.2 inside, fits, List.drop_length]

theorem lines_ne_nil (file : Text) : lines file ≠ [] := List.splitOn_ne_nil _ _

theorem newline_notMem {file line : Text} (member : line ∈ lines file) : byte '\n' ∉ line := by
  induction file generalizing line with
  | nil =>
    rw [lines, List.splitOn_nil, List.mem_singleton] at member
    simp [member]
  | cons char file hypothesis =>
    obtain ⟨first, others, pieces⟩ := List.exists_cons_of_ne_nil (lines_ne_nil file)
    rw [lines, List.splitOn_cons_eq_if_modifyHead] at member
    rw [lines] at pieces hypothesis
    cases newline : char == byte '\n' with
    | true =>
      rw [if_pos newline, List.mem_cons] at member
      exact member.elim (by simp +contextual) hypothesis
    | false =>
      rw [if_neg (by simp [newline]), pieces, List.modifyHead_cons, List.mem_cons] at member
      cases member with
      | inl isFirst =>
        have inner := hypothesis (pieces ▸ List.mem_cons_self)
        have different : byte '\n' ≠ char := fun same => by simp [same] at newline
        simp [isFirst, inner, different]
      | inr inOthers => exact hypothesis (pieces ▸ List.mem_cons_of_mem _ inOthers)

/-- The loop scans every line with a newline behind it, and the end of the file stops it at the last one. -/
theorem readLines_intercalate (kvmap : KvMap) (first : Text) (others : List Text)
    (short : ∀ line ∈ first :: others, line.length < 8191)
    (single : ∀ line ∈ first :: others, byte '\n' ∉ line) :
    readLines kvmap ([byte '\n'].intercalate (first :: others)) =
      ((first :: others).dropLast.foldl scanLine kvmap, ⟨true, ((first :: others).getLast (by simp)).isEmpty⟩) := by
  induction others generalizing kvmap first with
  | nil =>
    have stops := (getline_line (short first (by simp)) (single first (by simp))).2
    rw [List.intercalate_singleton, readLines, stops]
    rfl
  | cons next others hypothesis =>
    have reads := (getline_line (short first (by simp)) (single first (by simp))).1
      ([byte '\n'].intercalate (next :: others))
    rw [List.intercalate_cons_cons, List.append_assoc, List.singleton_append, readLines, reads]
    exact hypothesis (scanLine kvmap first) next (fun line member => short line (by simp [member]))
      fun line member => single line (by simp [member])

theorem read_eq {file : Text} (readable : Readable file) :
    read file = .ok ((lines file).dropLast.foldl scanLine ∅) := by
  have whole : [byte '\n'].intercalate (lines file) = file := List.intercalate_splitOn _
  have single : ∀ line ∈ lines file, byte '\n' ∉ line := fun line => newline_notMem
  generalize pieces : lines file = all at *
  cases all with
  | nil => exact absurd pieces (lines_ne_nil file)
  | cons first others =>
    have run := readLines_intercalate ∅ first others
      (fun line member => (readable line (pieces ▸ member)).1) single
    rw [whole] at run
    simp only [read, run, if_true]

theorem lookup_add (kvmap : KvMap) (key value other : Text) :
    (kvmap.add key value).lookup other = (kvmap.lookup other).or (if other = key then some value else none) := by
  by_cases present : key ∈ kvmap
  · rw [KvMap.add, if_pos present]
    by_cases same : other = key
    · obtain ⟨found, lookup⟩ := Finmap.mem_iff.1 present
      rw [same, lookup, Option.some_or]
    · rw [if_neg same, Option.or_none]
  · rw [KvMap.add, if_neg present]
    by_cases same : other = key
    · rw [same, Finmap.lookup_insert, Finmap.lookup_eq_none.2 present, if_pos rfl, Option.none_or]
    · rw [Finmap.lookup_insert_of_ne _ same, if_neg same, Option.or_none]

/-- A line adds its entry behind the entries that the map has. -/
theorem lookup_scanLine (kvmap : KvMap) {line : Text} (noNull : 0 ∉ line) (key : Text) :
    (scanLine kvmap line).lookup key =
      (kvmap.lookup key).or (if key = [] then none else (entry line).toList.lookup key) := by
  rw [scanLine_entry kvmap noNull]
  cases entry line with
  | none => simp
  | some entry =>
    obtain ⟨name, value⟩ := entry
    by_cases empty : name = []
    · by_cases same : key = [] <;> simp [empty, same]
    · by_cases same : key = name <;> simp [empty, same, lookup_add]

/-- The map of a run over lines has the first entry of every key that is not empty. -/
theorem lookup_foldl (kvmap : KvMap) (all : List Text) (noNull : ∀ line ∈ all, 0 ∉ line) (key : Text) :
    (all.foldl scanLine kvmap).lookup key =
      (kvmap.lookup key).or (if key = [] then none else (all.filterMap entry).lookup key) := by
  induction all generalizing kvmap with
  | nil => simp
  | cons line all hypothesis =>
    have splits : (line :: all).filterMap entry = (entry line).toList ++ all.filterMap entry := by
      cases found : entry line <;> simp [found]
    rw [List.foldl_cons, hypothesis _ fun line member => noNull line (by simp [member]),
      lookup_scanLine kvmap (noNull line (by simp)), splits, List.lookup_append, Option.or_assoc]
    by_cases empty : key = [] <;> simp [empty]

/-- The reading of a text file knows the entries of every line but the last one. -/
theorem read_lookup {file : Text} (readable : Readable file) :
    ∃ kvmap, read file = .ok kvmap ∧ kvmap.lookup [] = none ∧
      ∀ key, key ≠ [] → kvmap.lookup key = ((lines file).dropLast.filterMap entry).lookup key := by
  have noNull : ∀ line ∈ (lines file).dropLast, 0 ∉ line :=
    fun line member => (readable line (List.mem_of_mem_dropLast member)).2
  refine ⟨_, read_eq readable, ?_, ?_⟩
  · rw [lookup_foldl _ _ noNull, Finmap.lookup_empty, if_pos rfl, Option.none_or]
  · intro key named
    rw [lookup_foldl _ _ noNull, Finmap.lookup_empty, if_neg named, Option.none_or]

theorem lookup_eq_none (entries : List (Text × Text)) (key : Text) :
    entries.lookup key = none ↔ ∀ other, (key, other) ∉ entries := by
  rw [List.lookup_eq_none_iff]
  constructor
  · intro differs other member
    simpa using differs _ member
  · intro absent entry member
    have different : key ≠ entry.1 := fun same => absent entry.2 (same ▸ member)
    simpa using different

theorem lines_split (file : Text) : ∃ earlier last, lines file = earlier ++ [last] :=
  ⟨_, _, (List.dropLast_append_getLast (lines_ne_nil file)).symm⟩

/-- The last line is lost if the described map has a value from it that the others do not give. -/
theorem losesLast_iff (file : Text) : LosesLast file ↔
    ∃ key, key ≠ [] ∧ ((lines file).dropLast.filterMap entry).lookup key ≠ described file key := by
  obtain ⟨earlier, last, pieces⟩ := lines_split file
  simp only [LosesLast, described, pieces, List.dropLast_concat, List.getLast?_concat, Option.mem_some_iff,
    List.filterMap_append, List.lookup_append]
  constructor
  · rintro ⟨_, rfl, key, value, found, named, fresh⟩
    refine ⟨key, named, ?_⟩
    have absent : (earlier.filterMap entry).lookup key = none := by
      rw [lookup_eq_none]
      intro other member
      obtain ⟨line, among, has⟩ := List.mem_filterMap.1 member
      exact fresh line among other has
    simp [absent, found]
  · rintro ⟨key, named, different⟩
    cases absent : (earlier.filterMap entry).lookup key with
    | some value => simp [absent] at different
    | none =>
      rw [absent, Option.none_or] at different
      cases found : entry last with
      | none => simp [found] at different
      | some pair =>
        obtain ⟨name, value⟩ := pair
        have same : key = name := by
          by_contra distinct
          simp [found, List.lookup_cons, beq_false_of_ne distinct] at different
        refine ⟨last, rfl, name, value, found, same ▸ named, fun line among other has => ?_⟩
        exact (lookup_eq_none _ _).1 absent other (List.mem_filterMap.2 ⟨line, among, same ▸ has⟩)

/-- The described map depends on the shown lines only. -/
theorem filterMap_shown (all : List Text) :
    all.filterMap entry = ((all.map (List.rdropWhile isBlank)).filter (· ≠ [])).filterMap entry := by
  induction all with
  | nil => rfl
  | cons line all hypothesis =>
    have same := entry_rdropWhile line
    by_cases blank : line.rdropWhile isBlank = []
    · have none : entry line = none := by rw [← same, blank]; rfl
      simp [none, blank, hypothesis]
    · rw [List.map_cons, List.filter_cons_of_pos (by simpa using blank), List.filterMap_cons, List.filterMap_cons,
        same, hypothesis]

theorem described_congr {first second : Text} (same : SameLines first second) : described first = described second := by
  funext key
  rw [described, described, filterMap_shown, same, ← filterMap_shown]

/-- The shown lines of a file that loses its last line end with it. -/
theorem shown_dropLast {file : Text} (loses : LosesLast file) :
    (((lines file).map (List.rdropWhile isBlank)).filter (· ≠ [])).dropLast =
      ((lines file).dropLast.map (List.rdropWhile isBlank)).filter (· ≠ []) := by
  obtain ⟨earlier, last, pieces⟩ := lines_split file
  obtain ⟨_, isLast, key, value, found, _⟩ := loses
  rw [pieces, List.getLast?_concat] at isLast
  cases isLast
  have shown : last.rdropWhile isBlank ≠ [] := by
    intro blank
    rw [← entry_rdropWhile, blank] at found
    cases found
  rw [pieces, List.map_append, List.filter_append, List.map_singleton,
    List.filter_cons_of_pos (by simpa using shown), List.filter_nil, List.dropLast_concat, List.dropLast_concat]

/-- A map of all lines but the last one is the described map unless the last line is lost. -/
theorem keeps_iff {file : Text} {kvmap : KvMap}
    (named : ∀ key, key ≠ [] → kvmap.lookup key = ((lines file).dropLast.filterMap entry).lookup key) :
    (∀ key, key ≠ [] → get kvmap key = described file key) ↔ ¬ LosesLast file := by
  rw [losesLast_iff, not_exists]
  refine forall_congr' fun key => ?_
  rw [not_and, not_not]
  exact forall_congr' fun filled => by rw [get, named key filled]

/-- The reading builds the map that the format describes unless it loses the last line, and two readings of the same
lines agree if they both lose it or both keep it. -/
theorem read_described_iff {file : Text} (readable : Readable file) :
    ∃ kvmap, read file = .ok kvmap ∧
      ((∀ key, key ≠ [] → get kvmap key = described file key ∧
        ∀ default, getOr kvmap key default = (described file key).getD default) ↔ ¬ LosesLast file) ∧
      ((∀ key, get kvmap key = described file key) ↔
        ¬ LosesLast file ∧ ∀ line ∈ lines file, ∀ value, entry line ≠ some ([], value)) ∧
      ∀ other, Readable other → SameLines file other →
        (read other = .ok kvmap ↔ (LosesLast file ↔ LosesLast other)) := by
  obtain ⟨kvmap, isRead, unnamed, named⟩ := read_lookup readable
  have keeps := keeps_iff named
  have emptyKey : described file [] = none ↔ ∀ line ∈ lines file, ∀ value, entry line ≠ some ([], value) := by
    rw [described, lookup_eq_none]
    constructor
    · intro absent line among value has
      exact absent value (List.mem_filterMap.2 ⟨line, among, has⟩)
    · intro absent value member
      obtain ⟨line, among, has⟩ := List.mem_filterMap.1 member
      exact absent line among value has
  refine ⟨kvmap, isRead, ?_, ?_, ?_⟩
  · rw [← keeps]
    exact forall_congr' fun key => forall_congr' fun _ =>
      ⟨And.left, fun same => ⟨same, fun default => by rw [getOr, ← same, get]⟩⟩
  · rw [← keeps, ← emptyKey]
    constructor
    · exact fun same => ⟨fun key _ => same key, (same []).symm.trans unnamed⟩
    · rintro ⟨same, absent⟩ key
      by_cases filled : key = []
      · rw [filled, absent, get, unnamed]
      · exact same key filled
  · intro other readableOther sameLines
    obtain ⟨otherMap, isOtherRead, otherUnnamed, otherNamed⟩ := read_lookup readableOther
    have equal : read other = .ok kvmap ↔ otherMap = kvmap := by rw [isOtherRead, Except.ok.injEq]
    have sameMap : described file = described other := described_congr sameLines
    rw [equal]
    constructor
    · intro sameRead
      rw [← not_iff_not, ← keeps, ← keeps_iff otherNamed, sameMap, sameRead]
    · intro bothLose
      refine Finmap.ext_lookup fun key => ?_
      by_cases filled : key = []
      · rw [filled, otherUnnamed, unnamed]
      by_cases loses : LosesLast file
      · rw [otherNamed key filled, named key filled, filterMap_shown, filterMap_shown (lines file).dropLast,
          ← shown_dropLast loses, ← shown_dropLast (bothLose.1 loses), sameLines]
      · have kept := keeps.2 loses key filled
        have otherKept := (keeps_iff otherNamed).2 (mt bothLose.2 loses) key filled
        exact otherKept.trans ((congrFun sameMap key).symm.trans kept.symm)

/-- A file with a newline at its end is read whole. -/
theorem read_described_iff_terminated : ∃ kvmap, read (text "a = 1\n") = .ok kvmap ∧
    ((∀ key, key ≠ [] → get kvmap key = described (text "a = 1\n") key ∧
      ∀ default, getOr kvmap key default = (described (text "a = 1\n") key).getD default) ↔
        ¬ LosesLast (text "a = 1\n")) ∧
    ((∀ key, get kvmap key = described (text "a = 1\n") key) ↔ ¬ LosesLast (text "a = 1\n") ∧
      ∀ line ∈ lines (text "a = 1\n"), ∀ value, entry line ≠ some ([], value)) ∧
    ∀ other, Readable other → SameLines (text "a = 1\n") other →
      (read other = .ok kvmap ↔ (LosesLast (text "a = 1\n") ↔ LosesLast other)) :=
  read_described_iff (by decide)

/-- The file `a=1` without a newline gives no value to its only key. -/
theorem read_unterminated : Readable (text "a=1") ∧ described (text "a=1") (text "a") = some (text "1") ∧
    ∃ kvmap, read (text "a=1") = .ok kvmap ∧ get kvmap (text "a") = none := by
  have readable : Readable (text "a=1") := by decide
  obtain ⟨kvmap, isRead, _, named⟩ := read_lookup readable
  exact ⟨readable, by decide, kvmap, isRead, (named (text "a") (by decide)).trans (by decide)⟩

end Config

end SimpleNFast
