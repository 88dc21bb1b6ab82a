import Mathlib.Data.List.TakeWhile
import SimpleNFast.Construction.Com.Clap
import SimpleNFast.Proof.Text

set_option maxRecDepth 100000

namespace SimpleNFast

theorem streq_iff {first second : Text} :
    streq first second = true ↔ first.map (toUpper ∘ toInt) = second.map (toUpper ∘ toInt) := by
  rw [streq, Bool.and_eq_true, beq_iff_eq, beq_iff_eq]
  exact ⟨And.right, fun same => ⟨by simpa using congrArg List.length same, same⟩⟩

theorem toUpper_dash (char : UInt8) : toUpper (toInt char) = 45 ↔ char = byte '-' := by
  revert char
  apply octet_forall
  decide

/-- The names of an option agree with its token in the dash. -/
theorem dashed_of_streq {first second : Text} (same : streq first second = true) : dashed first = dashed second := by
  have equal := streq_iff.1 same
  cases first with
  | nil =>
    cases second with
    | nil => rfl
    | cons => simp at equal
  | cons head tail =>
    cases second with
    | nil => simp at equal
    | cons other others =>
      have heads : toUpper (toInt head) = toUpper (toInt other) := by simpa using (List.cons.inj equal).1
      rw [Bool.eq_iff_iff]
      simp only [dashed, List.head?_cons, beq_iff_eq, Option.some.injEq, ← toUpper_dash, heads]

theorem comma_notMem (stream : Text) : byte ',' ∉ stream.takeWhile (· != byte ',') := fun member => by
  simpa using List.mem_takeWhile_imp (p := (· != byte ',')) member

theorem splitOn_last {stream : Text} (ends : stream.dropWhile (· != byte ',') = []) :
    stream.splitOn (byte ',') = [stream.takeWhile (· != byte ',')] := by
  have whole := List.takeWhile_append_dropWhile (p := (· != byte ',')) (l := stream)
  rw [ends, List.append_nil] at whole
  rw [whole, List.splitOn_eq_singleton (whole ▸ comma_notMem stream)]

theorem splitOn_part {stream rest : Text} {comma : UInt8} (behind : stream.dropWhile (· != byte ',') = comma :: rest) :
    stream.splitOn (byte ',') = stream.takeWhile (· != byte ',') :: rest.splitOn (byte ',') := by
  have whole := List.takeWhile_append_dropWhile (p := (· != byte ',')) (l := stream)
  have isComma := List.head_dropWhile_not (p := (· != byte ',')) (l := stream) (by simp [behind])
  simp only [behind, List.head_cons, bne_eq_false_iff_eq] at isComma
  rw [behind, isComma] at whole
  have parts := List.splitOn_append_cons_self_of_not_mem (comma_notMem stream) rest
  rwa [whole] at parts

/-- The loop over the stream yields the parts between the commas that are not empty. -/
theorem splitSequence_eq (stream : Text) :
    splitSequence stream = (stream.splitOn (byte ',')).filter (· ≠ []) := by
  fun_induction splitSequence stream with
  | case1 stream part ends empty =>
    have blank : part = [] := List.isEmpty_iff.1 empty
    rw [splitOn_last ends, List.filter_cons_of_neg (by rw [decide_eq_true_iff]; exact not_not.2 blank), List.filter_nil]
  | case2 stream part ends filled =>
    have shown : part ≠ [] := mt List.isEmpty_iff.2 filled
    rw [splitOn_last ends, List.filter_cons_of_pos (by rwa [decide_eq_true_iff]), List.filter_nil]
  | case3 stream part comma rest behind parts empty hypothesis =>
    have blank : part = [] := List.isEmpty_iff.1 empty
    rw [splitOn_part behind, List.filter_cons_of_neg (by rw [decide_eq_true_iff]; exact not_not.2 blank),
      ← hypothesis]
  | case4 stream part comma rest behind parts filled hypothesis =>
    have shown : part ≠ [] := mt List.isEmpty_iff.2 filled
    rw [splitOn_part behind, List.filter_cons_of_pos (by rwa [decide_eq_true_iff]), ← hypothesis]

namespace Clap

variable {Double : Type} (stod : Text → Except Thrown Double) {argv : List Text}

/-- The words of `argv` from an index on. -/
theorem drop_cons {idx : Nat} {token : Text} {rest : List Text} (words : argv.drop idx = token :: rest) :
    ∃ inside : idx < argv.length, argv[idx] = token ∧ argv[idx]? = some token ∧ argv.drop (idx + 1) = rest := by
  have inside : idx < argv.length := by
    by_contra outside
    rw [List.drop_of_length_le (by omega)] at words
    cases words
  rw [List.drop_eq_getElem_cons inside] at words
  obtain ⟨first, others⟩ := List.cons.inj words
  exact ⟨inside, first, by rw [List.getElem?_eq_getElem inside, first], others⟩

theorem drop_append {idx : Nat} {words rest : List Text} (starts : argv.drop idx = words ++ rest) :
    argv.drop (idx + words.length) = rest := by
  rw [← List.drop_drop, starts, List.drop_left]

/-- The words that denote an argument are the words that the `switch` takes. -/
theorem takeArg_denotes {opt : ClOpt Double} {idx : Nat} {words rest : List Text} {arg : ClOptArg Double}
    (denotes : Denotes opt.type words arg) (behind : argv.drop (idx + 1) = words ++ rest) :
    takeArg stod argv opt idx = .ok (some (idx + words.length, { opt with arg := arg })) := by
  generalize type : opt.type = kind at denotes
  cases denotes with
  | bool => simp only [takeArg, type, List.length_nil, Nat.add_zero]
  | int reads lower upper =>
    obtain ⟨_, _, next, _⟩ := drop_cons behind
    simp only [takeArg, type, next, stollAny, reads, if_neg (not_or.2 ⟨not_lt.2 lower, not_le.2 upper⟩)]
    rfl
  | string =>
    obtain ⟨_, _, next, _⟩ := drop_cons behind
    simp only [takeArg, type, next, List.length_singleton]
  | sequence =>
    obtain ⟨_, _, next, _⟩ := drop_cons behind
    simp only [takeArg, type, next, splitSequence_eq, List.length_singleton]

theorem denotes_length {type : ClOptType} {words : List Text} {arg : ClOptArg Double}
    (denotes : Denotes type words arg) : words.length ≤ 1 := by
  cases denotes <;> simp

theorem optionLoop_end {options : List (ClOpt Double)} {idx : Nat} (ends : argv.drop idx = []) :
    optionLoop stod argv options idx = .ok (true, idx, options) := by
  rw [optionLoop, dif_neg (not_lt.2 (List.drop_eq_nil_iff.1 ends))]

/-- The loop ends with a pass that fails. -/
theorem optionLoop_fail {opt : ClOpt Double} {options taken : List (ClOpt Double)} {idx next : Nat} {token : Text}
    {rest : List Text} (words : argv.drop idx = token :: rest) (isOption : dashed token = true)
    (fails : optionPass stod argv (opt :: options) idx = .ok (false, next, taken)) :
    optionLoop stod argv (opt :: options) idx = .ok (false, next, taken) := by
  obtain ⟨inside, here, _, _⟩ := drop_cons words
  rw [optionLoop, dif_pos inside, here, isOption, if_neg (by simp), if_neg (by simp)]
  split
  · next thrown => cases fails.symm.trans thrown
  · next found =>
    cases fails.symm.trans found
    rfl
  · next found => cases fails.symm.trans found

/-- The loop fails at an option that is not the first one of the declared options. -/
theorem optionLoop_reject {options : List (ClOpt Double)} {idx : Nat} {token : Text} {rest : List Text}
    (words : argv.drop idx = token :: rest) (isOption : dashed token = true)
    (unknown : ∀ opt ∈ options.head?, opt.names token = false) :
    optionLoop stod argv options idx = .ok (false, idx, options) := by
  obtain ⟨inside, here, found, _⟩ := drop_cons words
  cases options with
  | nil =>
    rw [optionLoop, dif_pos inside, here, isOption, if_neg (by simp)]
    rfl
  | cons opt options =>
    refine optionLoop_fail stod words isOption ?_
    rw [optionPass, found, Option.getD_some, unknown opt rfl, if_neg (by simp)]

/-- One pass over a single declared option takes the option with its words. -/
theorem optionLoop_take {opt : ClOpt Double} {idx : Nat} {token : Text} {words rest : List Text} {arg : ClOptArg Double}
    (here : argv.drop idx = token :: words ++ rest) (isOption : dashed token = true) (named : opt.names token = true)
    (denotes : Denotes opt.type words arg) :
    optionLoop stod argv [opt] idx =
      optionLoop stod argv [{ opt with arg := arg }] (idx + (token :: words).length) := by
  obtain ⟨inside, isToken, found, behind⟩ := drop_cons here
  have takes := takeArg_denotes stod denotes behind
  have passes : optionPass stod argv [opt] idx = .ok (true, idx + words.length, [{ opt with arg := arg }]) := by
    rw [optionPass, found, Option.getD_some, if_pos named, takes]
    rfl
  rw [optionLoop, dif_pos inside, isToken, isOption, if_neg (by simp), if_neg (by simp)]
  split
  · next thrown => cases passes.symm.trans thrown
  · next result => cases passes.symm.trans result
  · next result =>
    cases passes.symm.trans result
    rfl

/-- The single declared option fails without the word that it needs. -/
theorem optionLoop_missing {opt : ClOpt Double} {idx : Nat} {token : Text} (here : argv.drop idx = [token])
    (isOption : dashed token = true) (named : opt.names token = true)
    (valued : opt.type = .int ∨ opt.type = .string ∨ opt.type = .sequence) :
    optionLoop stod argv [opt] idx = .ok (false, idx, [opt]) := by
  obtain ⟨inside, isToken, found, behind⟩ := drop_cons here
  have ends : argv[idx + 1]? = none := List.getElem?_eq_none (List.drop_eq_nil_iff.1 behind)
  have takes : takeArg stod argv opt idx = .ok none := by
    rcases valued with type | type | type <;> simp only [takeArg, type, ends]
  refine optionLoop_fail stod here isOption ?_
  rw [optionPass, found, Option.getD_some, if_pos named, takes]
  rfl

/-- A command without sub-commands parses its options only. -/
theorem parse_leaf {cmd : Command Double} (noSubcmds : cmd.subcmds = []) {idx : Nat} {token : Text} {rest : List Text}
    (words : argv.drop (idx + 1) = token :: rest) :
    cmd.parse stod argv idx =
      if dashed token then
        (parseArgs stod argv cmd.options (idx + 1)).map fun (parsed, _, options) =>
          (parsed, { cmd with options := options, found := true })
      else .ok (true, { cmd with found := true }) := by
  obtain ⟨inside, _, found, _⟩ := drop_cons words
  obtain ⟨name, desc, options, subcmds, isFound⟩ := cmd
  cases noSubcmds
  rw [Command.parse, if_neg (by omega), found, Option.getD_some]
  cases dashed token with
  | false => rfl
  | true =>
    simp only [if_true]
    cases parseArgs stod argv options (idx + 1) with
    | error thrown => rfl
    | ok result =>
      obtain ⟨parsed, next, options⟩ := result
      cases parsed <;> rfl

theorem parse_leaf_end {cmd : Command Double} (noSubcmds : cmd.subcmds = []) {idx : Nat}
    (ends : idx + 1 = argv.length) : cmd.parse stod argv idx = .ok (cmd.options.isEmpty, cmd) := by
  obtain ⟨name, desc, options, subcmds, isFound⟩ := cmd
  cases noSubcmds
  rw [Command.parse, if_pos ends]
  rfl

/-- The parser looks for the sub-command that the word names. -/
theorem parseSubcmds_find {subcmds : List (Command Double)} {idx : Nat} {token : Text} {sc final : Command Double}
    {parsed : Bool} (word : argv[idx]? = some token)
    (finds : subcmds.find? (fun sc => streq sc.name token) = some sc) (sameName : final.name = sc.name)
    (parses : sc.parse stod argv idx = .ok (parsed, final)) :
    ∃ finals, parseSubcmds stod argv idx subcmds = .ok (parsed, finals) ∧
      finals.find? (fun sc => streq sc.name token) = some final := by
  induction subcmds with
  | nil => cases finds
  | cons first subcmds hypothesis =>
    rw [parseSubcmds, word]
    cases named : streq first.name token with
    | true =>
      rw [List.find?_cons, named] at finds
      cases finds
      refine ⟨final :: subcmds, ?_, by rw [List.find?_cons, sameName, named]⟩
      simp only [named, if_true, parses]
      rfl
    | false =>
      rw [List.find?_cons, named] at finds
      obtain ⟨finals, rest, found⟩ := hypothesis finds
      refine ⟨first :: finals, ?_, by rw [List.find?_cons, named, found]⟩
      simp only [named, Bool.false_eq_true, if_false, rest]
      rfl

/-- The words of a path lead the parser to the command at its end. -/
theorem parse_resolve {path : List Text} (plain : ∀ token ∈ path, dashed token = false)
    {cmd leaf final : Command Double} (resolves : resolve path cmd = some leaf) {idx : Nat} {words : List Text} {parsed : Bool}
    (starts : argv.drop (idx + 1) = path ++ words) (sameName : final.name = leaf.name)
    (parses : leaf.parse stod argv (idx + path.length) = .ok (parsed, final)) :
    ∃ root, cmd.parse stod argv idx = .ok (parsed, root) ∧ resolve path root = some final ∧ root.name = cmd.name := by
  induction path generalizing cmd idx with
  | nil =>
    cases resolves
    exact ⟨final, parses, rfl, sameName⟩
  | cons token path hypothesis =>
    obtain ⟨inside, _, found, behind⟩ := drop_cons starts
    obtain ⟨sc, finds, inner⟩ := Option.bind_eq_some_iff.1 resolves
    have next : idx + 1 + path.length = idx + (token :: path).length := by
      rw [List.length_cons]
      omega
    obtain ⟨root, parsesSub, resolvesSub, sameSub⟩ :=
      hypothesis (fun word member => plain word (List.mem_cons_of_mem _ member)) inner behind (next ▸ parses)
    obtain ⟨finals, parsesAll, findsFinal⟩ := parseSubcmds_find stod found finds sameSub parsesSub
    obtain ⟨name, desc, options, subcmds, isFound⟩ := cmd
    have filled : subcmds.isEmpty = false := by
      cases subcmds with
      | nil => cases finds
      | cons => rfl
    refine ⟨⟨name, desc, options, finals, true⟩, ?_, ?_, rfl⟩
    · rw [Command.parse, if_neg (by omega), found, Option.getD_some, plain token List.mem_cons_self]
      simp only [filled, parsesAll, bind, Except.bind, pure, Except.pure]
      rfl
    · rw [resolve, findsFinal, Option.bind_some, resolvesSub]

theorem denotes_found {opt : ClOpt Double} {words : List Text} {arg : ClOptArg Double}
    (denotes : Denotes opt.type words arg) : ({ opt with arg := arg } : ClOpt Double).found = true := by
  generalize opt.type = type at denotes
  cases denotes <;> rfl

theorem dashed_of_names {opt : ClOpt Double} (short : dashed opt.name = true) (long : dashed opt.longname = true)
    {token : Text} (named : opt.names token = true) : dashed token = true := by
  cases Bool.or_eq_true_iff.1 named with
  | inl same => rw [← dashed_of_streq same, short]
  | inr same => rw [← dashed_of_streq same, long]

/-- A line of a single declared option is empty or has this option. -/
theorem fits_single {opt : ClOpt Double} {written : List (Written Double)} (fits : Fits [opt] written) :
    written = [] ∨ ∃ each, written = [each] ∧ each.opt = opt := by
  cases written with
  | nil => exact .inl rfl
  | cons first others =>
    have isFirst : first.opt = opt := by simpa using fits.declared first List.mem_cons_self
    cases others with
    | nil => exact .inr ⟨first, rfl, isFirst⟩
    | cons second others =>
      have isSecond : second.opt = opt := by
        simpa using fits.declared second (List.mem_cons_of_mem _ List.mem_cons_self)
      have single := fits.single
      simp [isFirst, isSecond] at single

/-- The loop takes the line of a single declared option and goes on behind it. -/
theorem optionLoop_single {opt : ClOpt Double} (short : dashed opt.name = true) (long : dashed opt.longname = true)
    {written : List (Written Double)} (fits : Fits [opt] written) {idx : Nat} {rest : List Text}
    (starts : argv.drop idx = line written ++ rest) :
    ∃ final next, optionLoop stod argv [opt] idx = optionLoop stod argv [final] next ∧ argv.drop next = rest ∧
      Assigned written opt final ∧ (∃ arg, final = { opt with arg := arg }) ∧
      (written ≠ [] → final.found = true) := by
  rcases fits_single fits with rfl | ⟨each, rfl, isOpt⟩
  · exact ⟨opt, idx, rfl, starts, .inr ⟨by simp, rfl⟩, ⟨opt.arg, rfl⟩, fun filled => absurd rfl filled⟩
  · have named : opt.names each.token = true := isOpt ▸ each.named
    have denotes : Denotes opt.type each.words each.arg := isOpt ▸ each.denotes
    have here : argv.drop idx = (each.token :: each.words) ++ rest := by simpa [line] using starts
    exact ⟨_, _, optionLoop_take stod here (dashed_of_names short long named) named denotes, drop_append here,
      .inl ⟨each, List.mem_singleton_self each, isOpt, rfl⟩, ⟨each.arg, rfl⟩, fun _ => denotes_found denotes⟩

/-- The parser accepts a complete line of a single declared option. -/
theorem parse_single {cmd : Command Double} (noSubcmds : cmd.subcmds = []) {opt : ClOpt Double}
    (single : cmd.options = [opt]) (short : dashed opt.name = true) (long : dashed opt.longname = true)
    {written : List (Written Double)} (fits : Fits [opt] written) (filled : written ≠ []) {idx : Nat}
    (starts : argv.drop (idx + 1) = line written) :
    ∃ final, cmd.parse stod argv idx = .ok (true, { cmd with options := [final], found := true }) ∧
      Assigned written opt final := by
  have whole : argv.drop (idx + 1) = line written ++ [] := by rw [starts, List.append_nil]
  obtain ⟨final, next, runs, ends, assigned, _, found⟩ := optionLoop_single stod short long fits whole
  refine ⟨final, ?_, assigned⟩
  obtain ⟨each, rfl, isOpt⟩ := (fits_single fits).resolve_left filled
  have begins : argv.drop (idx + 1) = each.token :: each.words := by simpa [line] using starts
  have isOption : dashed each.token = true := dashed_of_names short long (isOpt ▸ each.named)
  have parses : parseArgs stod argv cmd.options (idx + 1) = .ok (true, next, [final]) := by
    rw [parseArgs, single, runs, optionLoop_end stod ends]
    simp [bind, Except.bind, pure, Except.pure, found filled]
  rw [parse_leaf stod noSubcmds begins, if_pos isOption, parses]
  rfl

theorem parse_of_loop {cmd : Command Double} (noSubcmds : cmd.subcmds = []) {idx next : Nat} {token : Text}
    {rest : List Text} (begins : argv.drop (idx + 1) = token :: rest) (isOption : dashed token = true)
    {options : List (ClOpt Double)} (fails : optionLoop stod argv cmd.options (idx + 1) = .ok (false, next, options)) :
    cmd.parse stod argv idx = .ok (false, { cmd with options := options, found := true }) := by
  rw [parse_leaf stod noSubcmds begins, if_pos isOption, parseArgs, fails]
  rfl

/-- A line of a single declared option begins with a dash if the word behind it does. -/
theorem line_begins {opt : ClOpt Double} (short : dashed opt.name = true) (long : dashed opt.longname = true)
    {written : List (Written Double)} (fits : Fits [opt] written) {token : Text} (isOption : dashed token = true)
    (rest : List Text) : ∃ head tail, line written ++ token :: rest = head :: tail ∧ dashed head = true := by
  rcases fits_single fits with rfl | ⟨each, rfl, isOpt⟩
  · exact ⟨token, rest, rfl, isOption⟩
  · exact ⟨each.token, each.words ++ token :: rest, by simp [line],
      dashed_of_names short long (isOpt ▸ each.named)⟩

/-- The parser rejects a faulty line of a single declared option. -/
theorem parse_faulty {cmd : Command Double} (noSubcmds : cmd.subcmds = []) {opt : ClOpt Double}
    (single : cmd.options = [opt]) (short : dashed opt.name = true) (long : dashed opt.longname = true)
    (typed : opt.type = .bool ∨ opt.type = .int ∨ opt.type = .string ∨ opt.type = .sequence) {words : List Text}
    (faulty : Faulty [opt] words) {idx : Nat} (inside : idx + 1 ≤ argv.length)
    (starts : argv.drop (idx + 1) = words) :
    ∃ final, cmd.parse stod argv idx = .ok (false, final) ∧ final.name = cmd.name := by
  cases faulty with
  | @undeclared written fits token isOption unknown rest =>
    obtain ⟨head, tail, begins, isHead⟩ := line_begins short long fits isOption rest
    obtain ⟨_, next, runs, behind, _, ⟨arg, rfl⟩, _⟩ := optionLoop_single stod short long fits starts
    have unknownStill : ∀ other ∈ [({ opt with arg := arg } : ClOpt Double)].head?, other.names token = false := by
      simpa [ClOpt.names] using unknown
    have rejects := optionLoop_reject stod behind isOption unknownStill
    exact ⟨_, parse_of_loop stod noSubcmds (starts.trans begins) isHead (by rw [single, runs, rejects]), rfl⟩
  | @missing written fits other declared valued token named =>
    rw [List.mem_singleton.1 declared] at valued named
    have isOption := dashed_of_names short long named
    obtain ⟨head, tail, begins, isHead⟩ := line_begins short long fits isOption []
    obtain ⟨_, next, runs, behind, _, ⟨arg, rfl⟩, _⟩ := optionLoop_single stod short long fits starts
    have stillNamed : ({ opt with arg := arg } : ClOpt Double).names token = true := named
    have rejects := optionLoop_missing stod behind isOption stillNamed (typed.resolve_left valued)
    exact ⟨_, parse_of_loop stod noSubcmds (starts.trans begins) isHead (by rw [single, runs, rejects]), rfl⟩
  | incomplete fits lacks =>
    rcases fits_single fits with rfl | ⟨each, rfl, isOpt⟩
    · have ends : idx + 1 = argv.length := le_antisymm inside (List.drop_eq_nil_iff.1 starts)
      exact ⟨cmd, by rw [parse_leaf_end stod noSubcmds ends, single]; rfl, rfl⟩
    · refine absurd (fun other member _ => ?_) lacks
      exact ⟨each, List.mem_singleton_self each, isOpt.trans (List.mem_singleton.1 member).symm⟩

theorem streq_refl (string : Text) : streq string string = true := streq_iff.2 rfl

/-- Two names that differ do not both name one word. -/
theorem names_distinct {first second : ClOpt Double} {token : Text}
    (distinct : ∀ a ∈ [first.name, first.longname], ∀ b ∈ [second.name, second.longname], streq a b = false)
    (named : second.names token = true) : first.names token = false := by
  by_contra both
  obtain ⟨a, isFirst, sameFirst⟩ : ∃ a ∈ [first.name, first.longname], streq a token = true := by
    rw [Bool.not_eq_false] at both
    simpa [ClOpt.names] using both
  obtain ⟨b, isSecond, sameSecond⟩ : ∃ b ∈ [second.name, second.longname], streq b token = true := by
    simpa [ClOpt.names] using named
  have same : streq a b = true := streq_iff.2 ((streq_iff.1 sameFirst).trans (streq_iff.1 sameSecond).symm)
  rw [distinct a isFirst b isSecond] at same
  cases same

/-- Every option can be written under each of its names. -/
theorem exists_written {opt : ClOpt Double}
    (typed : opt.type = .bool ∨ opt.type = .int ∨ opt.type = .string ∨ opt.type = .sequence) {token : Text}
    (named : opt.names token = true) : ∃ each : Written Double, each.opt = opt ∧ each.token = token := by
  have denoted : ∃ words arg, @Denotes Double opt.type words arg := by
    rcases typed with type | type | type | type <;> rw [type]
    · exact ⟨_, _, .bool⟩
    · exact ⟨[text "0"], .int 0, .int (by decide) (by decide) (by decide)⟩
    · exact ⟨_, _, .string []⟩
    · exact ⟨_, _, .sequence []⟩
  obtain ⟨words, arg, denotes⟩ := denoted
  exact ⟨⟨opt, token, words, arg, named, denotes⟩, rfl, rfl⟩

theorem exists_line {options : List (ClOpt Double)}
    (typed : ∀ opt ∈ options, opt.type = .bool ∨ opt.type = .int ∨ opt.type = .string ∨ opt.type = .sequence) :
    ∃ written : List (Written Double), written.map Written.opt = options := by
  induction options with
  | nil => exact ⟨[], rfl⟩
  | cons opt options hypothesis =>
    have named : opt.names opt.name = true := by rw [ClOpt.names, streq_refl, Bool.true_or]
    obtain ⟨each, isOpt, _⟩ := exists_written (typed opt List.mem_cons_self) named
    obtain ⟨others, areOptions⟩ := hypothesis fun other member => typed other (List.mem_cons_of_mem _ member)
    exact ⟨each :: others, by rw [List.map_cons, isOpt, areOptions]⟩

/-- The options without their arguments are all different, and none is named by a word of another one. -/
theorem declared_names {before after : List (ClOpt Double)} {opt : ClOpt Double}
    (declared : Declared (before ++ opt :: after)) {token : Text} (named : opt.names token = true) :
    ∀ other ∈ before ++ after, other.names token = false := by
  have distinct := declared.distinct
  simp only [List.flatMap_append, List.flatMap_cons, List.pairwise_append, Bool.not_eq_true'] at distinct
  obtain ⟨_, ⟨_, _, fromOpt⟩, fromBefore⟩ := distinct
  intro other member
  cases List.mem_append.1 member with
  | inl isBefore =>
    refine names_distinct (fun a isFirst b isSecond => ?_) named
    exact fromBefore a (List.mem_flatMap.2 ⟨other, isBefore, isFirst⟩) b (List.mem_append_left _ isSecond)
  | inr isAfter =>
    refine names_distinct (fun a isFirst b isSecond => ?_) named
    have differ := fromOpt b isSecond a (List.mem_flatMap.2 ⟨other, isAfter, isFirst⟩)
    rw [Bool.eq_false_iff, Ne, streq_iff] at differ ⊢
    exact fun same => differ same.symm

theorem names_self (opt : ClOpt Double) : opt.names opt.name = true := by
  rw [ClOpt.names, streq_refl, Bool.true_or]

theorem nodup_of_distinct {options : List (ClOpt Double)}
    (distinct : (options.flatMap fun opt => [opt.name, opt.longname]).Pairwise fun first second =>
      !streq first second) : options.Nodup := by
  induction options with
  | nil => exact List.nodup_nil
  | cons opt options hypothesis =>
    rw [List.flatMap_cons, List.pairwise_append] at distinct
    obtain ⟨_, others, differ⟩ := distinct
    refine List.nodup_cons.2 ⟨fun again => ?_, hypothesis others⟩
    have same := differ opt.name (by simp) opt.name (List.mem_flatMap.2 ⟨opt, again, by simp⟩)
    simp [streq_refl] at same

/-- Every declared option can be the first of a line with all options, under each of its names. -/
theorem exists_first {options : List (ClOpt Double)} (declared : Declared options) {opt : ClOpt Double}
    (isDeclared : opt ∈ options) {token : Text} (named : opt.names token = true) :
    ∃ first others, first.opt = opt ∧ first.token = token ∧ Fits options (first :: others) ∧
      Complete options (first :: others) := by
  obtain ⟨before, after, rfl⟩ := List.append_of_mem isDeclared
  obtain ⟨first, isOpt, isToken⟩ := exists_written (declared.typed opt isDeclared) named
  have part : before ++ after ⊆ before ++ opt :: after :=
    List.append_subset.2 ⟨List.subset_append_left _ _, fun other member => by simp [member]⟩
  obtain ⟨others, areOptions⟩ := exists_line fun other member => declared.typed other (part member)
  have moved : (first :: others).map Written.opt = opt :: (before ++ after) := by
    rw [List.map_cons, isOpt, areOptions]
  have same : ((first :: others).map Written.opt).Perm (before ++ opt :: after) := by
    rw [moved]
    exact List.perm_middle.symm
  refine ⟨first, others, isOpt, isToken, ⟨fun each member => ?_, ?_⟩, fun other member _ => ?_⟩
  · exact same.subset (List.mem_map_of_mem member)
  · exact same.nodup_iff.2 (nodup_of_distinct declared.distinct)
  · exact List.mem_map.1 (same.symm.subset member)

/-- The words behind the path are the words that the command at its end parses. -/
theorem clParse_resolve (program : Text) {path : List Text} (plain : ∀ token ∈ path, dashed token = false)
    {root leaf final : Command Double} (resolves : resolve path root = some leaf) (words : List Text) {parsed : Bool}
    (parses : leaf.parse stod (program :: path ++ words) path.length = .ok (parsed, final))
    (sameName : final.name = leaf.name) :
    ∃ all, clParse stod (program :: path ++ words) root = .ok (parsed, all) ∧ resolve path all = some final := by
  have starts : (program :: path ++ words).drop (0 + 1) = path ++ words := rfl
  rw [← Nat.zero_add path.length] at parses
  obtain ⟨all, result, leads, _⟩ := parse_resolve stod plain resolves starts sameName parses
  exact ⟨all, result, leads⟩

theorem line_cons (first : Written Double) (others : List (Written Double)) :
    line (first :: others) = first.token :: (first.words ++ line others) := by
  rw [line, List.flatMap_cons, List.cons_append, line]

theorem drop_path (program : Text) (path words : List Text) :
    (program :: path ++ words).drop (path.length + 1) = words := by
  rw [List.cons_append, List.drop_succ_cons, List.drop_left]

/-- A command that meets the description has names with a dash, because the others are not taken for options. -/
theorem dashed_of_meets {program : Text} {path : List Text} (plain : ∀ token ∈ path, dashed token = false)
    {root leaf : Command Double} (resolves : resolve path root = some leaf) (noSubcmds : leaf.subcmds = [])
    (declared : Declared leaf.options) (meets : Meets stod program path root leaf.options) {opt : ClOpt Double}
    (isDeclared : opt ∈ leaf.options) {token : Text} (named : opt.names token = true) : dashed token = true := by
  by_contra noDash
  obtain ⟨first, others, isOpt, rfl, fits, complete⟩ := exists_first declared isDeclared named
  have begins := (drop_path program path (line (first :: others))).trans (line_cons first others)
  have parses := parse_leaf stod noSubcmds begins
  rw [if_neg noDash] at parses
  obtain ⟨all, result, leads⟩ := clParse_resolve stod program plain resolves _ parses rfl
  obtain ⟨parsed, final, accepted, isFinal, assigned⟩ := meets.1 (first :: others) (by simp) fits complete
  cases accepted.symm.trans result
  cases isFinal.symm.trans leads
  have unchanged := List.forall₂_same.1 assigned opt isDeclared
  cases unchanged with
  | inl written =>
    obtain ⟨each, _, isEach, same⟩ := written
    have found := denotes_found (isEach ▸ each.denotes : Denotes opt.type each.words each.arg)
    rw [← same, ClOpt.found, declared.fresh opt isDeclared] at found
    cases found
  | inr missing => exact missing.1 first List.mem_cons_self isOpt

/-- A command with two declared options rejects a line that begins with the second one. -/
theorem not_meets_many {program : Text} {path : List Text} (plain : ∀ token ∈ path, dashed token = false)
    {root leaf : Command Double} (resolves : resolve path root = some leaf) (noSubcmds : leaf.subcmds = [])
    (declared : Declared leaf.options) {opt second : ClOpt Double} {others : List (ClOpt Double)}
    (many : leaf.options = opt :: second :: others) : ¬ Meets stod program path root leaf.options := by
  intro meets
  have isDeclared : second ∈ leaf.options := by simp [many]
  have isOption := dashed_of_meets stod plain resolves noSubcmds declared meets isDeclared (names_self second)
  obtain ⟨first, rest, _, isToken, fits, complete⟩ := exists_first declared isDeclared (names_self second)
  have begins := (drop_path program path (line (first :: rest))).trans (line_cons first rest)
  rw [isToken] at begins
  have unknown : ∀ other ∈ leaf.options.head?, other.names second.name = false := by
    have split : Declared ([opt] ++ second :: others) := by
      rw [many] at declared
      exact declared
    simpa [many] using declared_names split (names_self second) opt (by simp)
  have parses := parse_of_loop stod noSubcmds begins isOption (optionLoop_reject stod begins isOption unknown)
  obtain ⟨all, result, _⟩ := clParse_resolve stod program plain resolves _ parses rfl
  obtain ⟨_, _, accepted, _⟩ := meets.1 (first :: rest) (by simp) fits complete
  cases accepted.symm.trans result

/-- A command with two declared options rejects every line whose first argument is not a name of the second option. -/
theorem parse_many {cmd : Command Double} (noSubcmds : cmd.subcmds = []) {opt second : ClOpt Double}
    {options : List (ClOpt Double)} (many : cmd.options = opt :: second :: options)
    (declared : Declared (opt :: second :: options)) {first : Written Double} {others : List (Written Double)}
    (fits : Fits (opt :: second :: options) (first :: others)) (isOption : dashed first.token = true)
    (different : ∀ word ∈ first.words, second.names word = false) {idx : Nat}
    (starts : argv.drop (idx + 1) = line (first :: others)) :
    ∃ final, cmd.parse stod argv idx = .ok (false, final) := by
  rw [line_cons] at starts
  obtain ⟨_, _, found, behind⟩ := drop_cons starts
  suffices fails : ∃ next taken, optionPass stod argv (opt :: second :: options) (idx + 1) = .ok (false, next, taken) by
    obtain ⟨next, taken, fails⟩ := fails
    exact ⟨_, parse_of_loop stod noSubcmds starts isOption (many ▸ optionLoop_fail stod starts isOption fails)⟩
  cases named : opt.names first.token with
  | false => exact ⟨_, _, by rw [optionPass, found, Option.getD_some, named, if_neg (by simp)]⟩
  | true =>
    have split : Declared ([] ++ opt :: second :: options) := declared
    have unnamed := declared_names split named
    have isFirst : first.opt = opt := by
      by_contra other
      have member := (List.mem_cons.1 (fits.declared first List.mem_cons_self)).resolve_left other
      simpa [first.named] using unnamed first.opt member
    have takes := takeArg_denotes stod (isFirst ▸ first.denotes) behind
    have mismatch : second.names (argv[idx + 1 + first.words.length]?.getD []) = false := by
      cases words : first.words with
      | nil => simpa [found] using unnamed second (by simp)
      | cons word more =>
        have single := denotes_length first.denotes
        rw [words, List.length_cons] at single
        rw [words] at behind
        obtain ⟨_, _, next, _⟩ := drop_cons behind
        rw [List.length_cons, Nat.le_antisymm single (Nat.le_add_left _ _), next, Option.getD_some]
        exact different word (words ▸ List.mem_cons_self)
    refine ⟨idx + 1 + first.words.length, { opt with arg := first.arg } :: second :: options, ?_⟩
    rw [optionPass, found, Option.getD_some, if_pos named, takes]
    simp only [bind, Except.bind, optionPass, mismatch]
    rfl

/-- A command without options rejects every option. -/
theorem parse_unknown {cmd : Command Double} (noSubcmds : cmd.subcmds = []) (noOptions : cmd.options = [])
    {words : List Text} (faulty : Faulty cmd.options words) {idx : Nat} (starts : argv.drop (idx + 1) = words) :
    cmd.parse stod argv idx = .ok (false, { cmd with found := true }) := by
  cases faulty with
  | @undeclared written fits token isOption unknown rest =>
    have none : written = [] := List.eq_nil_iff_forall_not_mem.2 fun each member => by
      simpa [noOptions] using fits.declared each member
    rw [none] at starts
    exact parse_of_loop stod noSubcmds starts isOption
      (optionLoop_reject stod starts isOption (by simp [noOptions]))
  | missing fits member valued named => simp [noOptions] at member
  | incomplete fits lacks =>
    refine absurd (fun opt member _ => ?_) lacks
    simp [noOptions] at member

/-- The parser meets the description exactly for commands with at most one declared option, whose names have a dash. -/
theorem meets_iff (program : Text) {path : List Text} (plain : ∀ token ∈ path, dashed token = false)
    {root leaf : Command Double} (resolves : resolve path root = some leaf) (noSubcmds : leaf.subcmds = [])
    (declared : Declared leaf.options) :
    Meets stod program path root leaf.options ↔
      leaf.options.length ≤ 1 ∧ ∀ opt ∈ leaf.options, dashed opt.name = true ∧ dashed opt.longname = true := by
  constructor
  · intro meets
    constructor
    · by_contra many
      cases options : leaf.options with
      | nil => simp [options] at many
      | cons opt others =>
        cases others with
        | nil => simp [options] at many
        | cons second others => exact not_meets_many stod plain resolves noSubcmds declared options meets
    · intro opt isDeclared
      have isLong : opt.names opt.longname = true := by rw [ClOpt.names, streq_refl, Bool.or_true]
      exact ⟨dashed_of_meets stod plain resolves noSubcmds declared meets isDeclared (names_self opt),
        dashed_of_meets stod plain resolves noSubcmds declared meets isDeclared isLong⟩
  · rintro ⟨few, named⟩
    cases options : leaf.options with
    | nil =>
      constructor
      · intro written filled fits _
        obtain ⟨each, others, rfl⟩ := List.exists_cons_of_ne_nil filled
        exact absurd (fits.declared each List.mem_cons_self) (List.not_mem_nil)
      · intro words faulty
        have parses := parse_unknown stod noSubcmds options (options ▸ faulty) (drop_path program path words)
        obtain ⟨all, result, _⟩ := clParse_resolve stod program plain resolves words parses rfl
        exact ⟨all, result⟩
    | cons opt others =>
      rw [options] at few named
      obtain rfl : others = [] := by simpa using few
      obtain ⟨short, long⟩ := named opt List.mem_cons_self
      constructor
      · intro written filled fits _
        obtain ⟨final, parses, assigned⟩ :=
          parse_single stod noSubcmds options short long fits filled (drop_path program path (line written))
        obtain ⟨all, result, leads⟩ := clParse_resolve stod program plain resolves _ parses rfl
        exact ⟨all, _, result, leads, .cons assigned .nil⟩
      · intro words faulty
        have typed := declared.typed opt (by simp [options])
        obtain ⟨final, parses, sameName⟩ := parse_faulty stod noSubcmds options short long typed faulty
          (by simp) (drop_path program path words)
        obtain ⟨all, result, _⟩ := clParse_resolve stod program plain resolves words parses sameName
        exact ⟨all, result⟩

/-- These are the options and the commands of the test of the parser. -/
def dbhost : ClOpt Nat := .new (text "-dh") (text "--dbhost") (text "host name where database is running") true .string

def dbport : ClOpt Nat :=
  .new (text "-dp") (text "--dbport") (text "port number where database is running") true .int

def dbname : ClOpt Nat :=
  .new (text "-db") (text "--dbname") (text "database name where database is running") false .string

def testSubcommand (options : List (ClOpt Nat)) : Command Nat :=
  ⟨text "db", text "performe db initialization", options, [], false⟩

def testCommand (options : List (ClOpt Nat)) : Command Nat :=
  ⟨text "testprogram", text "a test program", [],
    [⟨text "init", text "initialize database", [], [testSubcommand options], false⟩], false⟩

/-- The sub-command of the test meets the description if the host is its only option. -/
theorem meets_iff_dbhost :
    Meets (fun _ => .error .invalidArgument) (text "testprogram") [text "init", text "db"] (testCommand [dbhost])
      [dbhost] ↔
    [dbhost].length ≤ 1 ∧ ∀ opt ∈ [dbhost], dashed opt.name = true ∧ dashed opt.longname = true := by
  have resolves : resolve [text "init", text "db"] (testCommand [dbhost]) =
      some (testSubcommand [dbhost]) := by rfl
  exact meets_iff _ _ (by decide) resolves rfl ⟨by decide, by decide, by decide⟩

/-- The command line of the test is complete, and the parser rejects it. -/
theorem claptest_rejected : ∃ written : List (Written Nat), written ≠ [] ∧ Fits [dbhost, dbport, dbname] written ∧
    Complete [dbhost, dbport, dbname] written ∧
    line written = [text "-dh", text "samplehost", text "-dp", text "123", text "--dbname", text "testdb"] ∧
    ∃ all, clParse (fun _ => .error .invalidArgument)
      (text "testprogram" :: [text "init", text "db"] ++ line written) (testCommand [dbhost, dbport, dbname]) =
        .ok (false, all) := by
  refine ⟨[⟨dbhost, text "-dh", [text "samplehost"], .string (text "samplehost"), by decide, .string _⟩,
    ⟨dbport, text "-dp", [text "123"], .int 123, by decide, .int (by decide) (by decide) (by decide)⟩,
    ⟨dbname, text "--dbname", [text "testdb"], .string (text "testdb"), by decide, .string _⟩], by simp,
    ⟨by decide, by decide⟩, fun opt declared _ => List.mem_map.1 declared, rfl, ?_⟩
  have resolves : resolve [text "init", text "db"] (testCommand [dbhost, dbport, dbname]) =
      some (testSubcommand [dbhost, dbport, dbname]) := by rfl
  have noSubcmds : (testSubcommand [dbhost, dbport, dbname]).subcmds = [] := rfl
  have begins := drop_path (text "testprogram") [text "init", text "db"]
    (text "-dh" :: [text "samplehost", text "-dp", text "123", text "--dbname", text "testdb"])
  have isOption : dashed (text "-dh") = true := by decide
  -- the port is compared with the argument of the host
  have fails := optionLoop_fail (fun _ => .error .invalidArgument) begins isOption
    (show optionPass _ _ [dbhost, dbport, dbname] 3 =
      .ok (false, 4, [{ dbhost with arg := .string (text "samplehost") }, dbport, dbname]) by rfl)
  have parses := parse_of_loop _ noSubcmds begins isOption fails
  obtain ⟨all, result, _⟩ := clParse_resolve _ (text "testprogram") (by decide) resolves _ parses rfl
  exact ⟨all, result⟩

end Clap

end SimpleNFast
