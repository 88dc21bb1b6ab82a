import SimpleNFast.Construction.Http.UriMerge
import SimpleNFast.Proof.Http.UriSplitting

set_option maxRecDepth 100000

namespace SimpleNFast.Http

namespace Uri

open Components Reference

variable {path : Text} {query fragment : Option Text}

/-- The query and the fragment with their marks. -/
def tailText (query fragment : Option Text) : Text := marked (text "?") query ++ marked (text "#") fragment

/-- No component has the mark of a later one. -/
structure Apart (path : Text) (query : Option Text) : Prop where
  path : ∀ char ∈ path, inPath char = true
  query : ∀ chars ∈ query, ∀ char ∈ chars, inQuery char = true

theorem takeWhile_ends {accepts : UInt8 → Bool} {word rest : Text} (all : ∀ char ∈ word, accepts char = true)
    (ends : rest = [] ∨ ∃ stop more, rest = stop :: more ∧ accepts stop = false) :
    (word ++ rest).takeWhile accepts = word ∧ (word ++ rest).dropWhile accepts = rest := by
  have taken : (word ++ rest).takeWhile accepts = word := by
    obtain rfl | ⟨stop, more, rfl, refused⟩ := ends
    · rw [List.append_nil, List.takeWhile_eq_self_iff.2 all]
    · exact takeWhile_stop all refused more
  refine ⟨taken, ?_⟩
  rw [← drop_takeWhile, taken, List.drop_left]

theorem marked_ends (fragment : Option Text) : marked (text "#") fragment = [] ∨
    ∃ more, marked (text "#") fragment = byte '#' :: more := by
  cases fragment with
  | none => exact .inl rfl
  | some fragment => exact .inr ⟨fragment, rfl⟩

theorem tailText_ends (query fragment : Option Text) : tailText query fragment = [] ∨
    ∃ stop more, tailText query fragment = stop :: more ∧ inPath stop = false := by
  rw [tailText]
  cases query with
  | none =>
      obtain none | ⟨more, shape⟩ := marked_ends fragment
      · exact .inl none
      · exact .inr ⟨byte '#', more, shape, by decide⟩
  | some query => exact .inr ⟨byte '?', query ++ marked (text "#") fragment, rfl, by decide⟩

/-- The path, the query and the fragment are found again. -/
theorem ofTail_text (apart : Apart path query) :
    ofTail (path ++ tailText query fragment) = ⟨none, none, path, query, fragment⟩ := by
  obtain ⟨taken, behind⟩ := takeWhile_ends apart.path (tailText_ends query fragment)
  have last : cut (text "#") (fun _ => true) (marked (text "#") fragment) = (fragment, []) := by
    cases fragment with
    | none => rfl
    | some fragment => exact cut_hash fragment
  have first : cut (text "?") inQuery (tailText query fragment) = (query, marked (text "#") fragment) := by
    rw [tailText]
    cases some : query with
    | none =>
        rw [marked, List.nil_append]
        obtain none | ⟨more, shape⟩ := marked_ends fragment
        · rw [none]
          rfl
        · rw [shape]
          exact cut_none rfl
    | some chars =>
        have ends : marked (text "#") fragment = [] ∨
            ∃ stop more, marked (text "#") fragment = stop :: more ∧ inQuery stop = false :=
          (marked_ends fragment).imp id fun ⟨more, shape⟩ => ⟨byte '#', more, shape, by decide⟩
        obtain ⟨word, rest⟩ := takeWhile_ends (apart.query chars some) ends
        change cut (text "?") inQuery (byte '?' :: (chars ++ marked (text "#") fragment)) = _
        rw [cut_question, word, rest]
  rw [ofTail, taken, behind, first]
  dsimp only
  rw [last]

/-- No authority begins at a path without a slash after a slash. -/
theorem single_text (single : ¬ text "//" <:+: path) : ¬ text "//" <+: path ++ tailText query fragment := by
  intro begins
  by_cases long : (text "//").length ≤ path.length
  · exact single (List.prefix_of_prefix_length_le begins (List.prefix_append _ _) long).isInfix
  · have two : (text "//").length = 2 := by decide
    obtain ⟨rest, shape⟩ := begins
    change byte '/' :: byte '/' :: rest = _ at shape
    obtain none | ⟨stop, more, tail, refused⟩ := tailText_ends query fragment
    · rw [none, List.append_nil] at shape
      rw [← shape] at long
      exact long (by simp only [List.length_cons]; omega)
    · rw [tail] at shape
      have stops : stop ≠ byte '/' := by
        rintro rfl
        exact absurd refused (by decide)
      match path with
      | [] => exact stops (List.cons.inj shape).1.symm
      | [first] => exact stops (List.cons.inj (List.cons.inj shape).2).1.symm
      | first :: second :: others => exact long (by simp only [List.length_cons]; omega)

/-- The path behind an authority begins where the authority ends. -/
theorem rooted_text (rooted : path = [] ∨ path.head? = some (byte '/')) : path ++ tailText query fragment = [] ∨
    ∃ stop more, path ++ tailText query fragment = stop :: more ∧ inAuthority stop = false := by
  obtain rfl | begins := rooted
  · have less : ∀ char, inPath char = false → inAuthority char = false := by
      apply octet_forall
      decide
    rw [List.nil_append]
    exact (tailText_ends query fragment).imp id fun ⟨stop, more, shape, refused⟩ => ⟨stop, more, shape, less stop refused⟩
  · cases path with
    | nil => cases begins
    | cons first more =>
        cases begins
        exact .inr ⟨byte '/', more ++ tailText query fragment, rfl, by decide⟩

/-- The parts of an authority have no mark of a later component. -/
theorem gives_apart {parts : AuthorityParts} {given : Uri} (gives : parts.Gives given) :
    ∀ char ∈ parts.text, inAuthority char = true := by
  have user : ∀ char, UriUserinfo.keeps (toInt char) = true ∨ char = byte '%' ∨ isXdigit (toInt char) = true →
      inAuthority char = true := by
    apply octet_forall
    decide
  have digit : ∀ char, isDigit (toInt char) = true → inAuthority char = true := by
    apply octet_forall
    decide
  intro char member
  rw [parts_text, List.mem_append, List.mem_append] at member
  obtain inUser | inHost | inPort := member
  · obtain ⟨none, -⟩ | ⟨userinfo, some, -, set⟩ := gives.userinfo
    · rw [none] at inUser
      cases inUser
    · rw [some, userText, List.mem_append, List.mem_singleton] at inUser
      obtain inside | rfl := inUser
      · exact user char (decodeKeeping_chars (decodeOrThrow_ok.1 set) char inside)
      · decide
  · obtain ⟨shape, accepted, -⟩ | ⟨-, decoded⟩ := UriHost.set_iff.1 gives.host
    · rw [shape, List.mem_cons, List.mem_append, List.mem_singleton] at inHost
      obtain rfl | inside | rfl := inHost
      · decide
      · exact (address_apart char (inetPton6_chars accepted char inside)).2.2
      · decide
    · exact (regular_apart char (decodeKeeping_chars decoded char inHost)).2.2.2
  · obtain ⟨none, -⟩ | ⟨port, some, set⟩ := gives.port
    · rw [none] at inPort
      cases inPort
    · rw [some, portText, List.mem_cons] at inPort
      obtain rfl | inside := inPort
      · decide
      · exact digit char ((UriPort.set_ok.1 set).1.1.2 char inside)

section Written

variable {uri : Uri} {decoded question hash : Text} (bare : Bare uri) (apart : Apart path query)
  (single : ¬ text "//" <:+: path) (tail : TailRead ⟨none, none, path, query, fragment⟩ decoded question hash)
include bare apart single tail

/-- A path with what follows it is read. -/
theorem readHierarchy_path :
    readHierarchy uri (path ++ tailText query fragment) =
      .ok { uri with path := UriPath.normal decoded, query := question, fragment := hash } := by
  rw [readHierarchy_single (single_text single), ofTail_text apart]
  exact (readTail_ok bare).2 ⟨decoded, question, hash, tail, rfl⟩

/-- An authority with what follows it is read. -/
theorem readHierarchy_authority {given : Uri} (unset : uri.userinfo = [] ∧ uri.port = []) {parts : AuthorityParts}
    (gives : parts.Gives given) (rooted : path = [] ∨ path.head? = some (byte '/')) :
    readHierarchy uri (text "//" ++ parts.text ++ (path ++ tailText query fragment)) =
      .ok { uri with
        userinfo := given.userinfo
        host := given.host
        port := given.port
        path := UriPath.normal decoded
        query := question
        fragment := hash } := by
  obtain ⟨taken, behind⟩ := takeWhile_ends (gives_apart gives) (rooted_text rooted)
  have other : (text "//").isPrefixOf (path ++ tailText query fragment) = false := by
    rw [Bool.eq_false_iff, Ne, List.isPrefixOf_iff_prefix]
    exact single_text single
  rw [List.append_assoc, readHierarchy_double, taken, behind, readAuthority_text unset gives]
  change readAuthorities _ _ _ = _
  rw [readAuthorities, cut_none other]
  change readTail _ (ofTail _) = _
  rw [ofTail_text apart]
  exact (readTail_ok (bare.frame uri.scheme given.userinfo given.host given.port)).2
    ⟨decoded, question, hash, tail, rfl⟩

end Written

/-- A string that begins with a valid scheme is read behind its colon. -/
theorem read_scheme {word : Text} (set : UriScheme.set word = .ok word) (rest : Text) :
    Uri.read (word ++ byte ':' :: rest) = readHierarchy { empty with scheme := word } rest := by
  have marks : ∀ char, inScheme char = true → char ≠ byte ':' ∧ char ≠ byte '/' ∧ inAuthority char = true := by
    apply octet_forall
    decide
  obtain ⟨-, filled, apart⟩ := scheme_word set
  have colon : byte ':' ∉ word := fun member => (marks _ (apart _ member)).1 rfl
  have slash : byte '/' ∉ word := fun member => (marks _ (apart _ member)).2.1 rfl
  have begins : ((word ++ byte ':' :: rest).head?.any inAuthority && beginsWithScheme (word ++ byte ':' :: rest)) =
      true := by
    rw [Bool.and_eq_true, beginsWithScheme_iff]
    refine ⟨?_, word, rest, rfl, colon, slash⟩
    obtain ⟨first, others, rfl⟩ := List.exists_cons_of_ne_nil filled
    rw [List.cons_append, List.head?_cons, Option.any_some]
    exact (marks first (apart first List.mem_cons_self)).2.2
  rw [Uri.read, if_pos begins, takeWhile_before colon, dropWhile_before colon, set]
  rfl

theorem read_plain {string : Text} (plain : NoScheme string) : Uri.read string = readHierarchy empty string := by
  rw [NoScheme] at plain
  rw [Uri.read, if_neg (by rw [plain]; exact Bool.false_ne_true)]

end Uri

end SimpleNFast.Http
