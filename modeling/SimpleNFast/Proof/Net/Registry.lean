import SimpleNFast.Construction.Net.Registry

namespace SimpleNFast.Net

namespace Registry

variable {registry : Registry} {s other : Int} {e f : Event} {infos : List Registration}

theorem lookup_filter (keeps : Int → Bool) (registry : Registry) (s : Int) :
    List.lookup s (registry.filter fun entry => keeps entry.1) = if keeps s then registry.lookup s else none := by
  induction registry with
  | nil => simp
  | cons entry rest others =>
      obtain ⟨key, infos⟩ := entry
      by_cases same : s = key
      · subst same
        by_cases kept : keeps s = true
        · simp [kept]
        · simp [kept, others]
      · have differs : (s == key) = false := beq_eq_false_iff_ne.2 same
        have passed : List.lookup s ((key, infos) :: rest) = rest.lookup s := by rw [List.lookup_cons, differs]
        rw [passed, List.filter_cons]
        split
        · rw [List.lookup_cons, differs, others]
        · exact others

theorem lookup_assign (registry : Registry) (s other : Int) (infos : List Registration) :
    (registry.assign s infos).lookup other = if other = s then some infos else registry.lookup other := by
  rw [assign, List.lookup_append, lookup_filter (fun key => decide (key < s))]
  by_cases same : other = s
  · subst same
    simp
  · have differs : (other == s) = false := beq_eq_false_iff_ne.2 same
    rw [if_neg same, List.lookup_cons, differs]
    dsimp only
    rw [lookup_filter (fun key => decide (s < key))]
    by_cases before : other < s
    · have after : ¬ s < other := by omega
      simp [before, after]
    · have after : s < other := by omega
      simp [before, after]

theorem lookup_erase (registry : Registry) (s other : Int) :
    (registry.erase s).lookup other = if other = s then none else registry.lookup other := by
  rw [erase, lookup_filter (fun key => key != s)]
  by_cases same : other = s <;> simp [same]

/-- Each socket has one vector. -/
def Keyed (registry : Registry) : Prop := (registry.map Prod.fst).Nodup

theorem Keyed.assign (keyed : Keyed registry) (s : Int) (infos : List Registration) : Keyed (registry.assign s infos) := by
  rw [Keyed, Registry.assign, List.map_append, List.map_cons, List.nodup_append, List.nodup_cons]
  refine ⟨keyed.sublist (List.filter_sublist.map _), ⟨?_, keyed.sublist (List.filter_sublist.map _)⟩, ?_⟩
  · simp
  · intro one inside two among
    have low : one < s := by
      obtain ⟨entry, kept, rfl⟩ := List.mem_map.1 inside
      simpa using (List.mem_filter.1 kept).2
    have high : s ≤ two := by
      obtain rfl | among := List.mem_cons.1 among
      · exact le_rfl
      · obtain ⟨entry, kept, rfl⟩ := List.mem_map.1 among
        exact le_of_lt (by simpa using (List.mem_filter.1 kept).2)
    omega

theorem Keyed.erase (keyed : Keyed registry) (s : Int) : Keyed (registry.erase s) :=
  keyed.sublist (List.filter_sublist.map _)

/-- The registrations of a socket are for different events, which can be registered. -/
structure Sorted (infos : List Registration) : Prop where
  distinct : (infos.map Registration.e).Nodup
  registrable : ∀ event ∈ infos.map Registration.e, event = .read ∨ event = .write

theorem Sorted.sublist {fewer : List Registration} (sorted : Sorted infos)
    (sublist : (fewer.map Registration.e).Sublist (infos.map Registration.e)) : Sorted fewer :=
  ⟨sorted.distinct.sublist sublist, fun event inside => sorted.registrable event (sublist.subset inside)⟩

/-- No registration behind the first one has its event. -/
theorem Sorted.find_none {info : Registration} (sorted : Sorted (info :: infos)) :
    infos.find? (·.e = info.e) = none := by
  rw [List.find?_eq_none]
  intro later inside same
  rw [decide_eq_true_eq] at same
  exact (List.nodup_cons.1 sorted.distinct).1 (same ▸ List.mem_map_of_mem inside)

theorem Sorted.tail {info : Registration} (sorted : Sorted (info :: infos)) : Sorted infos :=
  sorted.sublist (List.sublist_cons_self _ _)

theorem find_cons (info : Registration) (infos : List Registration) (e : Event) :
    (info :: infos).find? (·.e = e) = if info.e = e then some info else infos.find? (·.e = e) := by
  by_cases same : info.e = e <;> simp [same]

theorem replace_none (h : Nat) (missing : infos.find? (·.e = e) = none) : replace e h infos = none := by
  induction infos with
  | nil => rfl
  | cons info rest others =>
      rw [find_cons] at missing
      by_cases same : info.e = e
      · rw [if_pos same] at missing
        cases missing
      · rw [if_neg same] at missing
        rw [replace, if_neg same, others missing]
        rfl

/-- The replaced registration keeps everything but its handler, and the others stay. -/
theorem replace_some {info : Registration} (h : Nat) (found : infos.find? (·.e = e) = some info) :
    ∃ later, replace e h infos = some later ∧ later.map Registration.e = infos.map Registration.e ∧
      ∀ f, later.find? (·.e = f) = if f = e then some { info with h := h } else infos.find? (·.e = f) := by
  induction infos with
  | nil => cases found
  | cons first rest others =>
      rw [find_cons] at found
      by_cases same : first.e = e
      · rw [if_pos same] at found
        cases found
        refine ⟨{ info with h := h } :: rest, by rw [replace, if_pos same], rfl, fun f => ?_⟩
        rw [find_cons, find_cons]
        by_cases asked : f = e
        · rw [if_pos (same.trans asked.symm), if_pos asked]
        · have differs : info.e ≠ f := fun equal => asked (equal.symm.trans same)
          rw [if_neg differs, if_neg asked, if_neg differs]
      · rw [if_neg same] at found
        obtain ⟨later, made, events, finds⟩ := others found
        refine ⟨first :: later, by rw [replace, if_neg same, made]; rfl, by rw [List.map_cons, events]; rfl, fun f => ?_⟩
        rw [find_cons, find_cons, finds]
        by_cases asked : f = e
        · rw [if_neg (fun equal => same (equal.trans asked)), if_pos asked, if_pos asked]
        · rw [if_neg asked, if_neg asked]

end Registry

namespace Reactor
open Registry

variable {registry : Registry} {s other : Int} {e f : Event} {infos : List Registration}

/-- The map has one vector for each socket, and the vectors are sorted. -/
structure Regular (registry : Registry) : Prop where
  keyed : Keyed registry
  sorted : ∀ s infos, registry.lookup s = some infos → Sorted infos

theorem Regular.assign (regular : Regular registry) (s : Int) (sorted : Sorted infos) :
    Regular (registry.assign s infos) where
  keyed := regular.keyed.assign s infos
  sorted other later found := by
    rw [lookup_assign] at found
    split at found
    · cases found
      exact sorted
    · exact regular.sorted other later found

theorem Regular.erase (regular : Regular registry) (s : Int) : Regular (registry.erase s) where
  keyed := regular.keyed.erase s
  sorted other later found := by
    rw [lookup_erase] at found
    split at found
    · cases found
    · exact regular.sorted other later found

theorem at_assign (registry : Registry) (s other : Int) (infos : List Registration) (e : Event) :
    at' (registry.assign s infos) other e = if other = s then infos.find? (·.e = e) else at' registry other e := by
  rw [at', lookup_assign]
  split <;> rfl

theorem at_erase (registry : Registry) (s other : Int) (e : Event) :
    at' (registry.erase s) other e = if other = s then none else at' registry other e := by
  rw [at', lookup_erase]
  split <;> rfl

theorem at_lookup (found : registry.lookup s = some infos) (e : Event) :
    at' registry s e = infos.find? (·.e = e) := by
  rw [at', found, Option.bind_some]

theorem at_missing (missing : registry.lookup s = none) (e : Event) : at' registry s e = none := by
  rw [at', missing, Option.bind_none]

/-- A registration gets a new handler, or it is made; all others stay. -/
theorem at_add (registry : Registry) (now s : Int) (e : Event) (h : Nat) (timeout : Int) (other : Int) (f : Event) :
    at' (registry.add now s e h timeout) other f =
      if other = s ∧ f = e then
        some ((at' registry s e).elim (.create now e timeout h) fun info => { info with h := h })
      else at' registry other f := by
  have created : (Registration.create now e timeout h).e = e := by
    unfold Registration.create
    split <;> rfl
  unfold add
  cases found : registry.lookup s with
  | none =>
      dsimp only
      rw [at_assign, at_missing found]
      by_cases same : other = s
      · subst same
        rw [if_pos rfl, find_cons, created, List.find?_nil, at_missing found]
        by_cases asked : f = e
        · rw [if_pos asked.symm, if_pos ⟨rfl, asked⟩]
          rfl
        · rw [if_neg (Ne.symm asked), if_neg (fun both => asked both.2)]
      · rw [if_neg same, if_neg (fun both => same both.1)]
  | some infos =>
      dsimp only
      rw [at_assign]
      by_cases same : other = s
      · subst same
        rw [if_pos rfl, at_lookup found, at_lookup found]
        cases here : infos.find? (·.e = e) with
        | none =>
            rw [replace_none h here, Option.getD_none, List.find?_append, find_cons, created, List.find?_nil]
            by_cases asked : f = e
            · subst asked
              rw [here, if_pos rfl, if_pos ⟨rfl, rfl⟩]
              rfl
            · rw [if_neg (Ne.symm asked), if_neg (fun both => asked both.2), Option.or_none]
        | some info =>
            obtain ⟨later, made, -, finds⟩ := replace_some h here
            rw [made, Option.getD_some, finds]
            by_cases asked : f = e
            · rw [if_pos asked, if_pos ⟨rfl, asked⟩]
              rfl
            · rw [if_neg asked, if_neg (fun both => asked both.2)]
      · rw [if_neg same, if_neg (fun both => same both.1)]

theorem Regular.add (regular : Regular registry) (now s : Int) {e : Event} (registrable : e = .read ∨ e = .write)
    (h : Nat) (timeout : Int) : Regular (registry.add now s e h timeout) := by
  have created : (Registration.create now e timeout h).e = e := by
    unfold Registration.create
    split <;> rfl
  unfold Registry.add
  cases found : registry.lookup s with
  | none =>
      apply regular.assign
      constructor
      · simp
      · simpa [created] using registrable
  | some infos =>
      have sorted := regular.sorted s infos found
      apply regular.assign
      cases here : infos.find? (·.e = e) with
      | none =>
          rw [replace_none h here, Option.getD_none]
          rw [List.find?_eq_none] at here
          constructor
          · rw [List.map_append, List.nodup_append]
            refine ⟨sorted.distinct, by simp, ?_⟩
            intro one inside two last
            obtain ⟨info, among, rfl⟩ := List.mem_map.1 inside
            rw [List.map_singleton, List.mem_singleton, created] at last
            rw [last]
            simpa using here info among
          · intro event inside
            rw [List.map_append, List.mem_append] at inside
            obtain inside | last := inside
            · exact sorted.registrable event inside
            · rw [List.map_singleton, List.mem_singleton, created] at last
              rw [last]
              exact registrable
      | some info =>
          obtain ⟨later, made, events, -⟩ := replace_some h here
          rw [made, Option.getD_some]
          exact sorted.sublist (by rw [events])

theorem eraseP_sublist_events (infos : List Registration) (e : Event) :
    ((infos.eraseP (·.e = e)).map Registration.e).Sublist (infos.map Registration.e) :=
  List.eraseP_sublist.map _

/-- The registration of an event is erased, and the others stay. -/
theorem find_eraseP (sorted : Sorted infos) (e f : Event) :
    (infos.eraseP (·.e = e)).find? (·.e = f) = if f = e then none else infos.find? (·.e = f) := by
  induction infos with
  | nil => simp
  | cons info rest others =>
      by_cases same : info.e = e
      · rw [List.eraseP_cons_of_pos (by simpa using same), find_cons]
        by_cases asked : f = e
        · rw [if_pos asked, asked, ← same]
          exact sorted.find_none
        · rw [if_neg asked, if_neg fun equal => asked (equal.symm.trans same)]
      · rw [List.eraseP_cons_of_neg (by simpa using same), find_cons, find_cons, others sorted.tail]
        by_cases asked : f = e
        · rw [if_pos asked, if_pos asked, if_neg fun equal => same (equal.trans asked)]
        · rw [if_neg asked, if_neg asked]

theorem at_removeHandler (regular : Regular registry) (s : Int) (e : Event) (other : Int) (f : Event) :
    at' (registry.removeHandler s e) other f = if other = s ∧ f = e then none else at' registry other f := by
  unfold removeHandler
  cases found : registry.lookup s with
  | none =>
      dsimp only
      split
      · rename_i both
        rw [both.1, at_missing found]
      · rfl
  | some infos =>
      have finds := find_eraseP (regular.sorted s infos found) e f
      dsimp only
      by_cases same : other = s
      · subst same
        rw [at_lookup found]
        by_cases empty : (infos.eraseP (·.e = e)).isEmpty = true
        · rw [if_pos empty, at_erase, if_pos rfl]
          rw [List.isEmpty_iff.1 empty, List.find?_nil] at finds
          simpa using finds
        · rw [if_neg empty, at_assign, if_pos rfl, finds]
          simp
      · rw [if_neg fun both : other = s ∧ f = e => same both.1]
        split
        · rw [at_erase, if_neg same]
        · rw [at_assign, if_neg same]

theorem Regular.removeHandler (regular : Regular registry) (s : Int) (e : Event) :
    Regular (registry.removeHandler s e) := by
  unfold Registry.removeHandler
  cases found : registry.lookup s with
  | none => exact regular
  | some infos =>
      dsimp only
      split
      · exact regular.erase s
      · exact regular.assign s ((regular.sorted s infos found).sublist (eraseP_sublist_events infos e))

section Rounds

variable (round : Round)

/-- What a round leaves of a registration. -/
def stays (fd : Int) (info : Registration) : Option Registration :=
  match info.told round fd with
  | none => some info
  | some event => if round.again fd info.e then some (info.rearm round.now event) else none

/-- The call of a registration in a round. -/
def callOf (fd : Int) (info : Registration) : Option HandlerCall :=
  (info.told round fd).map fun event => ⟨fd, info.e, info.h, event, round.again fd info.e⟩

variable {round}

theorem visit_eq (fd : Int) (infos : List Registration) :
    visit round fd infos = (infos.filterMap (stays round fd), infos.filterMap (callOf round fd)) := by
  induction infos with
  | nil => rfl
  | cons info rest others =>
      rw [visit, others, List.filterMap_cons, List.filterMap_cons, stays, callOf]
      cases info.told round fd with
      | none => rfl
      | some event =>
          dsimp only [Option.map_some]
          split <;> rfl

theorem stays_event {fd : Int} {info later : Registration} (left : stays round fd info = some later) :
    later.e = info.e := by
  unfold stays at left
  split at left
  · cases left
    rfl
  · split at left
    · cases left
      unfold Registration.rearm
      split <;> rfl
    · cases left

theorem events_stays (fd : Int) (infos : List Registration) :
    ((infos.filterMap (stays round fd)).map Registration.e).Sublist (infos.map Registration.e) := by
  induction infos with
  | nil => exact .slnil
  | cons info rest others =>
      rw [List.map_cons]
      cases left : stays round fd info with
      | none =>
          rw [List.filterMap_cons_none left]
          exact others.cons _
      | some later =>
          rw [List.filterMap_cons_some left, List.map_cons, stays_event left]
          exact others.cons_cons _

theorem find_stays (sorted : Sorted infos) (fd : Int) (f : Event) :
    (infos.filterMap (stays round fd)).find? (·.e = f) = (infos.find? (·.e = f)).bind (stays round fd) := by
  induction infos with
  | nil => rfl
  | cons info rest others =>
      have deeper := others sorted.tail
      rw [find_cons]
      by_cases same : info.e = f
      · subst same
        rw [sorted.find_none, Option.bind_none] at deeper
        rw [if_pos rfl, Option.bind_some]
        cases left : stays round fd info with
        | none => rw [List.filterMap_cons_none left, deeper]
        | some later => rw [List.filterMap_cons_some left, find_cons, if_pos (stays_event left)]
      · rw [if_neg same, ← deeper]
        cases left : stays round fd info with
        | none => rw [List.filterMap_cons_none left]
        | some later =>
            rw [List.filterMap_cons_some left, find_cons, if_neg fun equal => same ((stays_event left).symm.trans equal)]

/-- A call is for a socket and an event. -/
def isFor (s : Int) (f : Event) (call : HandlerCall) : Bool := call.fd = s ∧ call.e = f

theorem filter_calls (sorted : Sorted infos) (fd s : Int) (f : Event) :
    (infos.filterMap (callOf round fd)).filter (isFor s f) =
      if s = fd then ((infos.find? (·.e = f)).bind (callOf round fd)).toList else [] := by
  induction infos with
  | nil => simp
  | cons info rest others =>
      have deeper := others sorted.tail
      rw [find_cons]
      have shape : ∀ call, callOf round fd info = some call → isFor s f call = decide (s = fd ∧ info.e = f) := by
        intro call called
        obtain ⟨event, -, rfl⟩ := Option.map_eq_some_iff.1 called
        unfold isFor
        simp [eq_comm]
      cases called : callOf round fd info with
      | none =>
          rw [List.filterMap_cons_none called, deeper]
          by_cases same : info.e = f
          · subst same
            rw [sorted.find_none, if_pos rfl, Option.bind_some, called]
            rfl
          · rw [if_neg same]
      | some call =>
          rw [List.filterMap_cons_some called, List.filter_cons, shape call called, deeper]
          by_cases here : s = fd
          · by_cases same : info.e = f
            · subst same
              rw [sorted.find_none, if_pos here, if_pos rfl, Option.bind_some, called]
              simp [here]
            · rw [if_neg same]
              simp [same]
          · simp [here]

/-- One socket is processed: the other ones stay. -/
theorem at_process (regular : Regular registry) (calls : List HandlerCall) (fd s : Int) (f : Event) :
    at' (process round (registry, calls) fd).1 s f =
      if s = fd then (at' registry s f).bind (stays round fd) else at' registry s f := by
  unfold process
  cases found : registry.lookup fd with
  | none =>
      dsimp only
      split
      · rename_i same
        rw [same, at_missing found]
        rfl
      · rfl
  | some infos =>
      have finds : (infos.filterMap (stays round fd)).find? (·.e = f) = _ :=
        find_stays (regular.sorted fd infos found) fd f
      dsimp only
      rw [visit_eq]
      dsimp only
      by_cases same : s = fd
      · subst same
        rw [if_pos rfl, at_lookup found, ← finds]
        split
        · rename_i empty
          rw [at_erase, if_pos rfl, List.isEmpty_iff.1 empty]
          rfl
        · rw [at_assign, if_pos rfl]
      · rw [if_neg same]
        split
        · rw [at_erase, if_neg same]
        · rw [at_assign, if_neg same]

theorem calls_process (regular : Regular registry) (calls : List HandlerCall) (fd s : Int) (f : Event) :
    (process round (registry, calls) fd).2.filter (isFor s f) =
      calls.filter (isFor s f) ++ if s = fd then ((at' registry s f).bind (callOf round fd)).toList else [] := by
  unfold process
  cases found : registry.lookup fd with
  | none =>
      dsimp only
      split
      · rename_i same
        rw [same, at_missing found]
        simp
      · simp
  | some infos =>
      dsimp only
      rw [visit_eq]
      dsimp only
      rw [List.filter_append, filter_calls (regular.sorted fd infos found)]
      by_cases same : s = fd
      · subst same
        rw [at_lookup found]
      · rw [if_neg same, if_neg same]

theorem Regular.process (regular : Regular registry) (calls : List HandlerCall) (fd : Int) :
    Regular (Registry.process round (registry, calls) fd).1 := by
  unfold Registry.process
  cases found : registry.lookup fd with
  | none => exact regular
  | some infos =>
      dsimp only
      rw [visit_eq]
      dsimp only
      split
      · exact regular.erase fd
      · exact regular.assign fd ((regular.sorted fd infos found).sublist (events_stays fd infos))

/-- The loop over different sockets processes each of them once. -/
theorem process_all {fds : List Int} (distinct : fds.Nodup) (regular : Regular registry) (calls : List HandlerCall)
    (s : Int) (f : Event) :
    Regular (fds.foldl (process round) (registry, calls)).1 ∧
      at' (fds.foldl (process round) (registry, calls)).1 s f =
        (if s ∈ fds then (at' registry s f).bind (stays round s) else at' registry s f) ∧
      (fds.foldl (process round) (registry, calls)).2.filter (isFor s f) =
        calls.filter (isFor s f) ++ if s ∈ fds then ((at' registry s f).bind (callOf round s)).toList else [] := by
  induction fds generalizing registry calls with
  | nil => exact ⟨regular, by simp, by simp⟩
  | cons fd rest others =>
      obtain ⟨fresh, later⟩ := List.nodup_cons.1 distinct
      obtain ⟨kept, found, called⟩ := @others _ later (regular.process calls fd) (process round (registry, calls) fd).2
      rw [at_process regular] at found called
      rw [calls_process regular] at called
      rw [List.foldl_cons]
      refine ⟨kept, found.trans ?_, called.trans ?_⟩
      · by_cases same : s = fd
        · subst same
          rw [if_pos rfl, if_neg fresh, if_pos List.mem_cons_self]
        · simp [same]
      · by_cases same : s = fd
        · subst same
          rw [if_pos rfl, if_neg fresh, if_pos List.mem_cons_self, List.append_nil]
        · simp [same]

/-- A registered socket is polled. -/
theorem mem_pollVector (regular : Regular registry) {info : Registration} (found : at' registry s e = some info) :
    s ∈ registry.pollVector := by
  obtain ⟨infos, held, inside⟩ := Option.bind_eq_some_iff.1 found
  have member := List.mem_of_find?_eq_some inside
  have registrable := (regular.sorted s infos held).registrable info.e (List.mem_map_of_mem member)
  obtain ⟨before, after, rfl, -⟩ := List.lookup_eq_some_iff.1 held
  rw [pollVector, List.mem_map]
  refine ⟨(s, infos), List.mem_filter.2 ⟨by simp, ?_⟩, rfl⟩
  rw [List.any_eq_true]
  exact ⟨info, member, by simpa using registrable⟩

theorem Regular.pollVector_nodup (regular : Regular registry) : registry.pollVector.Nodup :=
  regular.keyed.sublist (List.filter_sublist.map _)

/-- A round in which some socket has an event visits each registration once. -/
theorem round_eq (regular : Regular registry) (s : Int) (f : Event)
    (ready : ∃ fd ∈ registry.pollVector, (round.revents fd).nonzero = true) :
    at' (registry.round round).1 s f = (at' registry s f).bind (stays round s) ∧
      (registry.round round).2.filter (isFor s f) = ((at' registry s f).bind (callOf round s)).toList := by
  obtain ⟨-, found, called⟩ := @process_all registry round _ regular.pollVector_nodup regular [] s f
  rw [Registry.round, if_pos (List.any_eq_true.2 ready), found, called, List.filter_nil, List.nil_append]
  cases here : at' registry s f with
  | none => simp
  | some info =>
      rw [if_pos (mem_pollVector regular here), if_pos (mem_pollVector regular here)]
      exact ⟨rfl, rfl⟩

theorem round_idle (idle : ¬ ∃ fd ∈ registry.pollVector, (round.revents fd).nonzero = true) :
    registry.round round = (registry, []) := by
  rw [Registry.round, if_neg fun any => idle (List.any_eq_true.1 any)]

theorem Regular.rounded (regular : Regular registry) : Regular (registry.round round).1 := by
  unfold Registry.round
  split
  · exact (process_all regular.pollVector_nodup regular [] 0 .read).1
  · exact regular

end Rounds

open Expected

/-- Calls for another registration leave one as it is. -/
theorem after_other {s : Int} {f : Event} {now : Int} {call : HandlerCall} (differs : isFor s f call = false)
    (before : Option Expected) : after s f (.called now call) before = before := by
  rw [after, if_neg (by simpa [isFor] using differs)]

/-- Only the calls for a registration count. -/
theorem current_called (s : Int) (f : Event) (now : Int) (calls : List HandlerCall) (history : List Happening) :
    current s f ((calls.map (.called now)).reverse ++ history) =
      (calls.filter (isFor s f)).foldl (fun before call => after s f (.called now call) before)
        (current s f history) := by
  induction calls generalizing history with
  | nil => rfl
  | cons call rest others =>
      rw [List.map_cons, List.reverse_cons, List.append_assoc, List.singleton_append, others, List.filter_cons, current]
      split
      · rfl
      · rename_i differs
        rw [after_other (by simpa using differs)]

/-- A registration does what is expected: its expiration is never later than the deadline. -/
structure Fulfils (info : Registration) (expected : Expected) : Prop where
  handler : info.h = expected.handler
  timeout : info.timeout = expected.timeout
  positive : 0 ≤ info.timeout
  deadline : ∀ deadline, expected.deadline = some deadline → ∃ exp, info.exp = some exp ∧ exp ≤ deadline
  expires : info.timeout ≠ 0 → ∃ exp, info.exp = some exp

/-- The map is regular, and each registration does what is expected from what has happened. -/
structure Sound (reactor : Reactor) : Prop where
  regular : Regular reactor.registry
  fulfils : ∀ s e, Option.Rel Fulfils (at' reactor.registry s e) (current s e reactor.history)

theorem fulfils_create (now : Int) (e : Event) (timeout : Int) (h : Nat) :
    Fulfils (.create now e timeout h) ⟨h, max timeout 0, deadlineAt now timeout⟩ := by
  unfold Registration.create deadlineAt
  by_cases none : timeout ≤ 0
  · rw [if_pos none, if_pos none]
    refine ⟨rfl, (max_eq_right none).symm, le_rfl, ?_, fun wrong => absurd rfl wrong⟩
    rintro deadline ⟨⟩
  · rw [if_neg none, if_neg none]
    have positive : 0 ≤ timeout := by omega
    refine ⟨rfl, (max_eq_left positive).symm, positive, ?_, fun _ => ⟨_, rfl⟩⟩
    rintro deadline ⟨⟩
    exact ⟨_, rfl, le_rfl⟩

/-- A replaced handler keeps the times of its registration, which are the new ones under the condition. -/
theorem Fulfils.replace {info : Registration} {expected : Expected} (fulfils : Fulfils info expected) {now timeout : Int}
    (h : Nat) (same : info.timeout = max timeout 0) (early : ∀ exp, info.exp = some exp → exp ≤ now + timeout) :
    Fulfils { info with h := h } ⟨h, max timeout 0, deadlineAt now timeout⟩ := by
  refine ⟨rfl, same, fulfils.positive, ?_, fulfils.expires⟩
  intro deadline later
  unfold deadlineAt at later
  split at later
  · cases later
  · rename_i positive
    cases later
    obtain ⟨exp, expires⟩ := fulfils.expires (by rw [same]; omega)
    exact ⟨exp, expires, early exp expires⟩

/-- What a round leaves of a registration is what its call leaves of the expectation. -/
theorem Fulfils.visited {round : Round} {s : Int} {info : Registration} {expected : Expected}
    (fulfils : Fulfils info expected) :
    Option.Rel Fulfils (stays round s info)
      ((callOf round s info).toList.foldl (fun before call => after s info.e (.called round.now call) before)
        (some expected)) := by
  unfold stays callOf
  cases info.told round s with
  | none => exact .some fulfils
  | some event =>
      simp only [Option.map_some, Option.toList_some, List.foldl_cons, List.foldl_nil, after, and_self, if_true]
      cases again : round.again s info.e with
      | false => exact .none
      | true =>
          rw [if_pos rfl, if_neg (by simp)]
          unfold Registration.rearm
          by_cases same : event = info.e
          · rw [if_pos same]
            refine .some ?_
            by_cases forever : info.timeout = 0
            · rw [if_neg (fun both => both.2 forever)]
              refine ⟨fulfils.handler, fulfils.timeout, fulfils.positive, ?_, fulfils.expires⟩
              intro deadline later
              rw [← fulfils.timeout, forever] at later
              cases later
            · rw [if_pos ⟨same, forever⟩]
              have positive := fulfils.positive
              refine ⟨fulfils.handler, fulfils.timeout, positive, ?_, fun _ => ⟨_, rfl⟩⟩
              intro deadline later
              dsimp only at later
              rw [← fulfils.timeout, deadlineAt, if_neg (by omega)] at later
              cases later
              exact ⟨_, rfl, le_rfl⟩
          · rw [if_neg same, if_neg (fun both => same both.1)]
            exact .some fulfils

theorem Sound.start : Sound start where
  regular := ⟨List.nodup_nil, fun _ _ wrong => by cases wrong⟩
  fulfils _ _ := .none

variable {reactor : Reactor}

theorem Sound.added (sound : Sound reactor) {now s : Int} {e : Event} (registrable : e = .read ∨ e = .write) (h : Nat)
    {timeout : Int}
    (meant : ∀ info, at' reactor.registry s e = some info →
      info.timeout = max timeout 0 ∧ ∀ exp, info.exp = some exp → exp ≤ now + timeout) :
    Sound ⟨reactor.registry.add now s e h timeout, .registered now s e h timeout :: reactor.history⟩ where
  regular := sound.regular.add now s registrable h timeout
  fulfils other f := by
    have before := sound.fulfils other f
    rw [at_add, current, after]
    by_cases both : other = s ∧ f = e
    · obtain ⟨rfl, rfl⟩ := both
      rw [if_pos ⟨rfl, rfl⟩, if_pos ⟨rfl, rfl⟩]
      cases found : at' reactor.registry other f with
      | none => exact .some (fulfils_create now f timeout h)
      | some info =>
          rw [found] at before
          cases expected : current other f reactor.history with
          | none =>
              rw [expected] at before
              cases before
          | some old =>
              rw [expected] at before
              cases before with
              | some fulfils =>
                  obtain ⟨same, early⟩ := meant info found
                  exact .some (fulfils.replace h same early)
    · have swapped : ¬ (s = other ∧ e = f) := fun equal => both ⟨equal.1.symm, equal.2.symm⟩
      rw [if_neg both, if_neg swapped]
      exact before

theorem Sound.erased (sound : Sound reactor) (s : Int) :
    Sound ⟨reactor.registry.erase s, .removedAll s :: reactor.history⟩ where
  regular := sound.regular.erase s
  fulfils other f := by
    rw [at_erase, current, after]
    by_cases same : other = s
    · rw [if_pos same, if_pos same.symm]
      exact .none
    · rw [if_neg same, if_neg (Ne.symm same)]
      exact sound.fulfils other f

theorem Sound.removed (sound : Sound reactor) (s : Int) (e : Event) :
    Sound ⟨reactor.registry.removeHandler s e, .removed s e :: reactor.history⟩ where
  regular := sound.regular.removeHandler s e
  fulfils other f := by
    rw [at_removeHandler sound.regular, current, after]
    by_cases both : other = s ∧ f = e
    · rw [if_pos both, if_pos ⟨both.1.symm, both.2.symm⟩]
      exact .none
    · have swapped : ¬ (s = other ∧ e = f) := fun equal => both ⟨equal.1.symm, equal.2.symm⟩
      rw [if_neg both, if_neg swapped]
      exact sound.fulfils other f

theorem Sound.rounded (sound : Sound reactor) (round : Round) : Sound (reactor.step (.round round)) where
  regular := sound.regular.rounded
  fulfils s f := by
    have before := sound.fulfils s f
    change Option.Rel Fulfils (at' (reactor.registry.round round).1 s f)
      (current s f (((reactor.registry.round round).2.map (.called round.now)).reverse ++ reactor.history))
    rw [current_called]
    by_cases ready : ∃ fd ∈ reactor.registry.pollVector, (round.revents fd).nonzero = true
    · obtain ⟨found, called⟩ := round_eq sound.regular s f ready
      rw [found, called]
      cases here : at' reactor.registry s f with
      | none =>
          rw [here] at before
          cases expected : current s f reactor.history with
          | none => exact .none
          | some old =>
              rw [expected] at before
              cases before
      | some info =>
          rw [here] at before
          cases expected : current s f reactor.history with
          | none =>
              rw [expected] at before
              cases before
          | some old =>
              rw [expected] at before
              cases before with
              | some fulfils =>
                  obtain ⟨infos, -, inside⟩ := Option.bind_eq_some_iff.1 here
                  have event : info.e = f := by simpa using List.find?_some inside
                  rw [← event]
                  exact fulfils.visited
    · rw [round_idle ready]
      exact before

/-- Each step that meets the condition keeps the map sound. -/
theorem Sound.step (sound : Sound reactor) {operation : Operation} (meant : Meant reactor operation) :
    Sound (reactor.step operation) := by
  cases operation with
  | addHandler now s e h timeout =>
      cases h with
      | none => exact sound
      | some h =>
          unfold Reactor.step addHandler
          by_cases fine : s ≠ -1 ∧ (e = .read ∨ e = .write)
          · simp only [if_pos fine]
            exact sound.added fine.2 h meant
          · simp only [if_neg fine]
            exact sound
  | removeHandlers s => exact sound.erased s
  | removeHandler s e => exact sound.removed s e
  | round round => exact sound.rounded round

theorem Sound.of_run (run : Run Meant reactor) : Sound reactor := by
  induction run with
  | start => exact .start
  | step _ fine before => exact before.step fine

/-- A reactor with a handler that waits for a hundred milliseconds. -/
def waiting : Reactor := start.step (.addHandler 0 5 .read (some 1) 100)

end Reactor

end SimpleNFast.Net
