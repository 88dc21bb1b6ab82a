import SimpleNFast.Construction.Net.Addresses

namespace SimpleNFast.Net

/-- When one function selects at least what the other one does, equal selections come from equal values. -/
theorem filterMap_eq_iff {α β : Type} {first second : α → Option β} {items : List α}
    (selects : ∀ item ∈ items, (first item).isSome → (second item).isSome) :
    items.filterMap first = items.filterMap second ↔ ∀ item ∈ items, first item = second item := by
  constructor
  · intro same
    induction items with
    | nil => simp
    | cons item rest others =>
        have restSelects : ∀ other ∈ rest, (first other).isSome → (second other).isSome :=
          fun other inside => selects other (List.mem_cons_of_mem _ inside)
        have here := selects item List.mem_cons_self
        rw [List.forall_mem_cons]
        cases one : first item with
        | some value =>
            obtain ⟨other, two⟩ := Option.isSome_iff_exists.1 (here (by rw [one]; rfl))
            rw [List.filterMap_cons_some one, List.filterMap_cons_some two] at same
            obtain ⟨rfl, tails⟩ := List.cons.inj same
            exact ⟨two.symm, others restSelects tails⟩
        | none =>
            cases two : second item with
            | none =>
                rw [List.filterMap_cons_none one, List.filterMap_cons_none two] at same
                exact ⟨rfl, others restSelects same⟩
            | some value =>
                -- the second selection is longer, because the first one selects no more than it
                have shorter : (rest.filterMap first).length ≤ (rest.filterMap second).length := by
                  rw [List.length_filterMap_eq_countP, List.length_filterMap_eq_countP]
                  exact List.countP_mono_left restSelects
                rw [List.filterMap_cons_none one, List.filterMap_cons_some two] at same
                rw [same, List.length_cons] at shorter
                omega
  · intro same
    exact List.filterMap_congr same

namespace SocketAddress

/-- What the loop makes of one entry. -/
def taken (res ptr : Addrinfo) : Option SocketAddress :=
  if ptr.family = AF_INET then some (ofIn res.addr)
  else if res.family = AF_INET6 then some (ofIn6 res.addr)
  else none

theorem collect_eq (res : Addrinfo) (entries : List Addrinfo) : collect res entries = entries.filterMap (taken res) := by
  induction entries with
  | nil => rfl
  | cons ptr next others =>
      rw [collect]
      by_cases inet : ptr.family = AF_INET
      · rw [if_pos inet, List.filterMap_cons_some (by rw [taken, if_pos inet]), others]
      · rw [if_neg inet]
        by_cases res6 : res.family = AF_INET6
        · rw [if_pos res6, List.filterMap_cons_some (by rw [taken, if_neg inet, if_pos res6]), others]
        · rw [if_neg res6, List.filterMap_cons_none (by rw [taken, if_neg inet, if_neg res6]), others]

theorem familyOf_take {bytes : List UInt8} {count : Nat} (two : 2 ≤ count) :
    familyOf (bytes.take count) = familyOf bytes := by
  unfold familyOf
  rw [List.getD_eq_getElem?_getD, List.getD_eq_getElem?_getD, List.getD_eq_getElem?_getD, List.getD_eq_getElem?_getD,
    List.getElem?_take_of_lt (by omega), List.getElem?_take_of_lt (by omega)]

/-- The copy of an IPv4 entry has its bytes. -/
theorem ofIn_own {entry : Addrinfo} (inet : entry.family = AF_INET) : ofIn entry.addr = ⟨entry.addr⟩ := by
  rw [ofIn, List.take_of_length_le (entry.size inet).le]

theorem ofIn6_own {entry : Addrinfo} (inet6 : entry.family = AF_INET6) : ofIn6 entry.addr = ⟨entry.addr⟩ := by
  rw [ofIn6, List.take_of_length_le (entry.size6 inet6).le]

/-- A copy that an IPv4 entry gives too comes from an entry with the same family and address. -/
theorem ofIn_eq_iff {first entry : Addrinfo} (inet : entry.family = AF_INET) :
    ofIn first.addr = ofIn entry.addr ↔ entry.family = first.family ∧ entry.addr = first.addr := by
  constructor
  · intro same
    have families : familyOf (first.addr.take sizeofIn) = familyOf entry.addr := by
      rw [ofIn_own inet] at same
      exact congrArg (fun address => familyOf address.bytes) same
    rw [familyOf_take (by decide), first.named, entry.named] at families
    rw [ofIn_own (families.trans inet), ofIn_own inet] at same
    exact ⟨families.symm, (congrArg bytes same).symm⟩
  · rintro ⟨-, same⟩
    rw [same]

/-- The loop takes the own address of an entry if and only if the entry is like the first one. -/
theorem taken_eq_own_iff (first entry : Addrinfo) : taken first entry = entry.own ↔ Addrinfo.LikeFirst first entry := by
  unfold taken Addrinfo.own
  have apart : AF_INET ≠ AF_INET6 := by decide
  by_cases inet : entry.family = AF_INET
  · rw [if_pos inet, if_pos inet, Option.some_inj, ofIn_eq_iff inet]
    constructor
    · intro same
      exact ⟨fun _ => same, fun only => same.1.trans only⟩
    · intro like
      exact like.same (.inl inet)
  · rw [if_neg inet, if_neg inet]
    by_cases inet6 : entry.family = AF_INET6
    · rw [if_pos inet6]
      by_cases first6 : first.family = AF_INET6
      · rw [if_pos first6, Option.some_inj, ofIn6_own first6, ofIn6_own inet6, SocketAddress.mk.injEq]
        constructor
        · intro same
          exact ⟨fun _ => ⟨inet6.trans first6.symm, same.symm⟩, fun _ => inet6⟩
        · intro like
          exact (like.same (.inr inet6)).2.symm
      · rw [if_neg first6]
        constructor
        · intro wrong
          cases wrong
        · intro like
          exact absurd ((like.same (.inr inet6)).1.symm.trans inet6) first6
    · rw [if_neg inet6]
      by_cases first6 : first.family = AF_INET6
      · rw [if_pos first6]
        constructor
        · intro wrong
          cases wrong
        · intro like
          exact absurd (like.only6 first6) inet6
      · rw [if_neg first6]
        constructor
        · intro _
          exact ⟨fun either => (either.elim inet inet6).elim, fun only => absurd only first6⟩
        · intro _
          rfl

/-- The loop returns the own addresses of the entries if and only if all of them are like the first one. -/
theorem collectAll_eq_iff (entries : List Addrinfo) :
    collectAll entries = entries.filterMap Addrinfo.own ↔ Addrinfo.AllLikeFirst entries := by
  cases entries with
  | nil => simp [collectAll, Addrinfo.AllLikeFirst]
  | cons first rest =>
      have pointwise : (∀ entry ∈ first :: rest, taken first entry = entry.own) ↔
          Addrinfo.AllLikeFirst (first :: rest) := by
        simp only [Addrinfo.AllLikeFirst, List.head?_cons, Option.mem_some_iff, forall_eq', taken_eq_own_iff]
      rw [collectAll, collect_eq, ← pointwise]
      by_cases first6 : first.family = AF_INET6
      · rw [eq_comm, filterMap_eq_iff]
        · simp only [eq_comm]
        · intro entry _ _
          unfold taken
          rw [if_pos first6]
          split <;> rfl
      · apply filterMap_eq_iff
        intro entry _ given
        unfold taken at given
        rw [if_neg first6] at given
        unfold Addrinfo.own
        split
        · rfl
        · rename_i other
          rw [if_neg other] at given
          cases given

/-- Both lookups return the own addresses of the IPv4 and IPv6 entries, in order, if and only if all entries are like
the first one. -/
theorem getServer_getClient_iff (getaddrinfo : Resolver) (inetPton : Text → Bool) (family : Nat) (type : SocketType)
    (host svc : Text) (served found : List Addrinfo) (given : svc ≠ [])
    (server : getAddressInfo getaddrinfo none svc (serverHints family type svc) = .ok served)
    (client : getAddressInfo getaddrinfo (some host) svc (clientHints inetPton family type host svc) = .ok found) :
    (getServer getaddrinfo family type svc = .ok (served.filterMap Addrinfo.own) ↔ Addrinfo.AllLikeFirst served) ∧
      (getClient getaddrinfo inetPton family type host svc = .ok (found.filterMap Addrinfo.own) ↔
        Addrinfo.AllLikeFirst found) := by
  have named : svc.isEmpty = false := List.isEmpty_eq_false_iff.2 given
  constructor
  · rw [getServer, named, if_neg (by decide), server, ← collectAll_eq_iff]
    exact ⟨fun same => Except.ok.inj same, fun same => congrArg Except.ok same⟩
  · rw [getClient, named, if_neg (by decide), client, ← collectAll_eq_iff]
    exact ⟨fun same => Except.ok.inj same, fun same => congrArg Except.ok same⟩

/-- The loopback addresses of the two families with a port. -/
def loopback : Addrinfo :=
  ⟨AF_INET, [2, 0, 0, 80, 127, 0, 0, 1, 0, 0, 0, 0, 0, 0, 0, 0], by decide, by decide, by decide⟩

def loopback6 : Addrinfo :=
  ⟨AF_INET6, [10, 0, 0, 80, 0, 0, 0, 0, 0, 0, 0, 0, 0, 0, 0, 0, 0, 0, 0, 0, 0, 0, 0, 1, 0, 0, 0, 0], by decide,
    by decide, by decide⟩

theorem getServer_getClient_iff_loopback :
    (getServer (fun _ _ _ _ => .found [loopback6]) AF_INET6 .tcp (text "80") =
        .ok ([loopback6].filterMap Addrinfo.own) ↔ Addrinfo.AllLikeFirst [loopback6]) ∧
      (getClient (fun _ _ _ _ => .found [loopback6]) (fun _ => false) AF_INET6 .tcp (text "localhost") (text "80") =
        .ok ([loopback6].filterMap Addrinfo.own) ↔ Addrinfo.AllLikeFirst [loopback6]) :=
  getServer_getClient_iff (fun _ _ _ _ => .found [loopback6]) (fun _ => false) AF_INET6 .tcp (text "localhost")
    (text "80") [loopback6] [loopback6] (by decide) rfl rfl

/-- The address of the second entry is lost. -/
theorem getServer_mixed : ¬ ∀ (getaddrinfo : Resolver) (family : Nat) (type : SocketType) (svc : Text)
    (entries : List Addrinfo), svc ≠ [] →
      getAddressInfo getaddrinfo none svc (serverHints family type svc) = .ok entries →
        getServer getaddrinfo family type svc = .ok (entries.filterMap Addrinfo.own) := by
  intro claimed
  have returned := claimed (fun _ _ _ _ => .found [loopback, loopback6]) 0 .tcp (text "80") [loopback, loopback6]
    (by decide) rfl
  revert returned
  decide

end SocketAddress

end SimpleNFast.Net
