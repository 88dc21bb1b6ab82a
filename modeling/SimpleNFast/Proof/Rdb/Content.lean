import SimpleNFast.Library.FreeStack
import SimpleNFast.Library.Total
import SimpleNFast.Proof.Rdb.PageEntries
import SimpleNFast.Construction.Rdb.Session

namespace SimpleNFast.Rdb
open FreeStack

/-- The records of each bucket: keys with the offsets of their values. -/
abbrev Records := Nat → Multiset (Bytes × Off)

def valueOffset (entry : Bytes × Off) : Nat := entry.2.getD 0

/-- A page of the value file that is marked as deleted, or that is not yet there. -/
def Deleted (db : List ValuePage) (offset : Nat) : Prop :=
  ∀ page, db[offset / valuePageSize]? = some page → page.isDeleted = true

/-- The value file holds the value of every record, and its stack has its other pages. -/
structure Content (strict : Prop) (htSize : Nat) (db : List ValuePage) (stack : List Nat)
    (records : Records) : Prop where
  keys : ∀ bucket, ((records bucket).map Prod.fst).Nodup
  home : ∀ bucket, ∀ entry ∈ records bucket, bucket < htSize ∧ hash entry.1 htSize = bucket
  live : ∀ bucket, ∀ entry ∈ records bucket, ∃ place value, entry.2 = some place ∧
    db[place / valuePageSize]? = some (ValuePage.init entry.1 value) ∧ rejected entry.1 = false ∧
    rejected value = false
  pages : Accounts strict valuePageSize db.length
    (total htSize fun bucket => (records bucket).map valueOffset) stack (Deleted db)

/-- The value of a key: the value page that its record names. -/
def Stores (htSize : Nat) (db : List ValuePage) (records : Records) (key value : Bytes) : Prop :=
  ∃ place, (key, some place) ∈ records (hash key htSize) ∧
    db[place / valuePageSize]? = some (ValuePage.init key value)

/-- The records and their value pages represent a finite map. -/
def Represents (htSize : Nat) (db : List ValuePage) (records : Records) (map : Bytes → Option Bytes) :
    Prop :=
  ∀ key value, map key = some value ↔ Stores htSize db records key value

namespace Content

variable {strict : Prop} {htSize : Nat} {db : List ValuePage} {stack : List Nat} {records : Records}
  {key value : Bytes} {bucket place : Nat}

/-- Two records never share a value page. -/
theorem unique (content : Content strict htSize db stack records) {first second : Bytes × Off}
    {other : Nat} (firstIn : first ∈ records bucket) (secondIn : second ∈ records other)
    (same : valueOffset first = valueOffset second) : first = second := by
  have nodup := content.pages.nodup (by decide)
  have buckets : bucket = other := by
    apply row_unique nodup (content.home bucket first firstIn).1 (content.home other second secondIn).1
    · exact Multiset.mem_map_of_mem _ firstIn
    · rw [same]
      exact Multiset.mem_map_of_mem _ secondIn
  subst buckets
  have inside := row_nodup nodup (content.home bucket first firstIn).1
  exact Multiset.inj_on_of_nodup_map inside first firstIn second secondIn same

/-- The offset of a record is that of a page of the file. -/
theorem place_lt (content : Content strict htSize db stack records)
    (member : (key, some place) ∈ records bucket) :
    ∃ index, index < db.length ∧ index * valuePageSize = place := by
  apply content.pages.used_lt (by decide)
  refine mem_total.2 ⟨bucket, (content.home bucket _ member).1, ?_⟩
  exact Multiset.mem_map_of_mem valueOffset member

/-- A record of another page keeps its value when one page changes. -/
theorem live_of_other {entry : Bytes × Off} {later : List ValuePage} {index : Nat}
    (content : Content strict htSize db stack records) (member : entry ∈ records bucket)
    (other : valueOffset entry ≠ index * valuePageSize)
    (same : ∀ spot, spot ≠ index → later[spot]? = db[spot]?) :
    ∃ place value, entry.2 = some place ∧
      later[place / valuePageSize]? = some (ValuePage.init entry.1 value) ∧
      rejected entry.1 = false ∧ rejected value = false := by
  obtain ⟨place, value, offset, page, fine⟩ := content.live bucket entry member
  refine ⟨place, value, offset, ?_, fine⟩
  have named : (entry.1, some place) ∈ records bucket := by
    rw [← offset]
    exact member
  obtain ⟨spot, -, rfl⟩ := content.place_lt named
  rw [Nat.mul_div_cancel _ (by decide)] at page ⊢
  rw [same spot, page]
  rintro rfl
  simp [valueOffset, offset] at other

theorem offset_index (index : Nat) : index * valuePageSize / valuePageSize = index :=
  Nat.mul_div_cancel _ (by decide)

/-- A free page is not the page of a record. -/
theorem deleted_of_other {later : List ValuePage} {index spot : Nat}
    (same : ∀ spot, spot ≠ index → later[spot]? = db[spot]?) (differs : spot ≠ index)
    (deleted : Deleted db (spot * valuePageSize)) : Deleted later (spot * valuePageSize) := by
  intro page read
  rw [offset_index, same spot differs, ← offset_index spot] at read
  exact deleted page read

/-- A write over the value of a record. -/
theorem overwrite {later : List ValuePage} {index : Nat}
    (content : Content strict htSize db stack records)
    (member : (key, some (index * valuePageSize)) ∈ records bucket) (fine : rejected value = false)
    (written : later[index]? = some (ValuePage.init key value)) (length : later.length = db.length)
    (same : ∀ spot, spot ≠ index → later[spot]? = db[spot]?) :
    Content strict htSize later stack records where
  keys := content.keys
  home := content.home
  live other entry inside := by
    by_cases own : valueOffset entry = index * valuePageSize
    · have equal : entry = (key, some (index * valuePageSize)) := content.unique inside member own
      subst equal
      obtain ⟨-, -, -, -, accepted, -⟩ := content.live bucket _ member
      exact ⟨index * valuePageSize, value, rfl, by rw [offset_index]; exact written, accepted, fine⟩
    · exact content.live_of_other inside own same
  pages := by
    rw [length]
    apply content.pages.mono _ (by decide)
    intro spot unused
    apply deleted_of_other same
    rintro rfl
    apply unused
    exact mem_total.2 ⟨bucket, (content.home bucket _ member).1, Multiset.mem_map_of_mem valueOffset member⟩

/-- A new record with its value in a page from the stack. -/
theorem insert {later : List ValuePage} {index : Nat} {rest : List Nat}
    (content : Content strict htSize db stack records) (bound : 0 < htSize)
    (absent : ∀ entry ∈ records (hash key htSize), entry.1 ≠ key)
    (fineKey : rejected key = false) (fine : rejected value = false)
    (taken : FreeStack.take valuePageSize stack = some (index * valuePageSize, rest))
    (written : later[index]? = some (ValuePage.init key value))
    (length : later.length = max db.length (index + 1))
    (same : ∀ spot, spot ≠ index → later[spot]? = db[spot]?) :
    Content strict htSize later rest (Function.update records (hash key htSize)
      ((key, some (index * valuePageSize)) ::ₘ records (hash key htSize))) := by
  obtain ⟨found, left, top, unused, -, account, -⟩ := content.pages.take (by decide)
  rw [taken, Option.some.injEq, Prod.mk.injEq] at top
  obtain ⟨place, rfl⟩ := top
  have equal := Nat.eq_of_mul_eq_mul_right (by decide) place
  subst equal
  have home : hash key htSize < htSize := Nat.mod_lt _ bound
  have apart : ∀ other, ∀ entry ∈ records other, valueOffset entry ≠ index * valuePageSize := by
    intro other entry inside own
    apply unused
    rw [← own]
    exact mem_total.2 ⟨other, (content.home other entry inside).1, Multiset.mem_map_of_mem valueOffset inside⟩
  refine ⟨?_, ?_, ?_, ?_⟩
  · intro other
    by_cases here : other = hash key htSize
    · subst here
      rw [Function.update_self, Multiset.map_cons, Multiset.nodup_cons]
      refine ⟨?_, content.keys _⟩
      intro inside
      obtain ⟨entry, member, named⟩ := Multiset.mem_map.1 inside
      exact absent entry member named
    · rw [Function.update_of_ne here]
      exact content.keys other
  · intro other entry inside
    by_cases here : other = hash key htSize
    · subst here
      rw [Function.update_self] at inside
      rcases Multiset.mem_cons.1 inside with rfl | old
      · exact ⟨home, rfl⟩
      · exact content.home _ entry old
    · rw [Function.update_of_ne here] at inside
      exact content.home other entry inside
  · intro other entry inside
    by_cases here : other = hash key htSize
    · subst here
      rw [Function.update_self] at inside
      rcases Multiset.mem_cons.1 inside with rfl | old
      · exact ⟨index * valuePageSize, value, rfl, by rw [offset_index]; exact written, fineKey, fine⟩
      · exact content.live_of_other old (apart _ entry old) same
    · rw [Function.update_of_ne here] at inside
      exact content.live_of_other inside (apart _ entry inside) same
  · rw [length]
    have grown : (total htSize fun bucket => (Function.update records (hash key htSize)
        ((key, some (index * valuePageSize)) ::ₘ records (hash key htSize)) bucket).map valueOffset) =
        index * valuePageSize ::ₘ total htSize fun bucket => (records bucket).map valueOffset := by
      obtain ⟨others, before, after⟩ := total_split records home
      rw [total_map, total_map, after, before, Multiset.cons_add, Multiset.map_cons]
      rfl
    rw [grown]
    apply account.mono _ (by decide)
    rintro spot - ⟨differs, deleted⟩
    apply deleted_of_other same _ deleted
    rintro rfl
    exact differs rfl

/-- A record leaves, and its value page goes to the stack. -/
theorem delete {later : List ValuePage} {index : Nat} {remaining : Multiset (Bytes × Off)}
    (content : Content strict htSize db stack records)
    (split : records bucket = (key, some (index * valuePageSize)) ::ₘ remaining)
    (flagged : ∀ page, later[index]? = some page → page.isDeleted = true)
    (length : later.length = db.length)
    (same : ∀ spot, spot ≠ index → later[spot]? = db[spot]?) :
    Content strict htSize later (index * valuePageSize :: stack)
      (Function.update records bucket remaining) := by
  have member : (key, some (index * valuePageSize)) ∈ records bucket := by
    rw [split]
    exact Multiset.mem_cons_self _ _
  have home := (content.home bucket _ member).1
  have nodup := content.keys bucket
  rw [split, Multiset.map_cons, Multiset.nodup_cons] at nodup
  have kept : ∀ other, ∀ entry ∈ Function.update records bucket remaining other,
      entry ∈ records other ∧ valueOffset entry ≠ index * valuePageSize := by
    intro other entry inside
    have old : entry ∈ records other := by
      by_cases here : other = bucket
      · subst here
        rw [Function.update_self] at inside
        rw [split]
        exact Multiset.mem_cons_of_mem inside
      · rwa [Function.update_of_ne here] at inside
    refine ⟨old, ?_⟩
    intro own
    have equal : entry = (key, some (index * valuePageSize)) := content.unique old member own
    subst equal
    have here := content.home other _ old
    have there := content.home bucket _ member
    have buckets : other = bucket := here.2.symm.trans there.2
    subst buckets
    rw [Function.update_self] at inside
    exact nodup.1 (Multiset.mem_map_of_mem Prod.fst inside)
  refine ⟨?_, ?_, ?_, ?_⟩
  · intro other
    by_cases here : other = bucket
    · subst here
      rw [Function.update_self]
      exact nodup.2
    · rw [Function.update_of_ne here]
      exact content.keys other
  · intro other entry inside
    exact content.home other entry (kept other entry inside).1
  · intro other entry inside
    exact content.live_of_other (kept other entry inside).1 (kept other entry inside).2 same
  · obtain ⟨others, before, after⟩ := total_split records home
    have pages := content.pages
    rw [total_map, before, split, Multiset.cons_add, Multiset.map_cons] at pages
    rw [total_map, after, length]
    apply Accounts.push _ _
    · apply pages.mono _ (by decide)
      intro spot unused deleted
      apply deleted_of_other same _ deleted
      rintro rfl
      apply unused
      exact Multiset.mem_cons_self _ _
    · intro page read
      rw [offset_index] at read
      exact flagged page read

/-- A page that was taken and written is marked as deleted and given back. -/
theorem giveBack {later : List ValuePage} {index : Nat} {rest : List Nat}
    (content : Content strict htSize db stack records)
    (taken : FreeStack.take valuePageSize stack = some (index * valuePageSize, rest))
    (flagged : ∀ page, later[index]? = some page → page.isDeleted = true)
    (length : later.length = max db.length (index + 1))
    (same : ∀ spot, spot ≠ index → later[spot]? = db[spot]?) :
    Content strict htSize later (index * valuePageSize :: rest) records := by
  obtain ⟨found, left, top, unused, -, account, -⟩ := content.pages.take (by decide)
  rw [taken, Option.some.injEq, Prod.mk.injEq] at top
  obtain ⟨place, rfl⟩ := top
  have equal := Nat.eq_of_mul_eq_mul_right (by decide) place
  subst equal
  refine ⟨content.keys, content.home, ?_, ?_⟩
  · intro other entry inside
    apply content.live_of_other inside _ same
    intro own
    apply unused
    rw [← own]
    exact mem_total.2 ⟨other, (content.home other entry inside).1, Multiset.mem_map_of_mem valueOffset inside⟩
  · rw [length]
    apply Accounts.push
    · apply account.mono _ (by decide)
      rintro spot - ⟨differs, deleted⟩
      apply deleted_of_other same _ deleted
      rintro rfl
      exact differs rfl
    · intro page read
      rw [offset_index] at read
      exact flagged page read

/-- The value page of a record stays when another page changes. -/
theorem read_other {later : List ValuePage} {index : Nat}
    (content : Content strict htSize db stack records)
    (member : (key, some place) ∈ records bucket) (other : place ≠ index * valuePageSize)
    (same : ∀ spot, spot ≠ index → later[spot]? = db[spot]?) :
    later[place / valuePageSize]? = db[place / valuePageSize]? := by
  obtain ⟨spot, -, rfl⟩ := content.place_lt member
  rw [offset_index]
  apply same
  rintro rfl
  exact other rfl

/-- A key has one record, and so one value page. -/
theorem place_unique (content : Content strict htSize db stack records) {other : Off}
    (first : (key, some place) ∈ records bucket) (second : (key, other) ∈ records bucket) :
    other = some place := by
  have equal := Multiset.inj_on_of_nodup_map (content.keys bucket) (key, some place) first
    (key, other) second rfl
  exact (congrArg Prod.snd equal).symm

theorem value_inj {first second : Bytes} (same : ValuePage.init key first = ValuePage.init key second) :
    first = second := congrArg ValuePage.value same

/-- A write over the value of a record changes the value of its key. -/
theorem represents_overwrite {later : List ValuePage} {index : Nat} {map : Bytes → Option Bytes}
    (content : Content strict htSize db stack records)
    (represents : Represents htSize db records map)
    (member : (key, some (index * valuePageSize)) ∈ records (hash key htSize))
    (written : later[index]? = some (ValuePage.init key value))
    (same : ∀ spot, spot ≠ index → later[spot]? = db[spot]?) :
    Represents htSize later records (Function.update map key (some value)) := by
  intro other found
  by_cases own : other = key
  · subst own
    rw [Function.update_self, Option.some.injEq]
    constructor
    · rintro rfl
      exact ⟨_, member, by rw [offset_index]; exact written⟩
    · rintro ⟨place, inside, read⟩
      have spot := content.place_unique member inside
      rw [Option.some.inj spot, offset_index, written, Option.some.injEq] at read
      exact value_inj read
  · rw [Function.update_of_ne own, represents other found]
    have reads : ∀ place, (other, some place) ∈ records (hash other htSize) →
        later[place / valuePageSize]? = db[place / valuePageSize]? := by
      intro place inside
      apply content.read_other inside _ same
      rintro rfl
      have equal := content.unique inside member rfl
      exact own (congrArg Prod.fst equal)
    constructor
    · rintro ⟨place, inside, read⟩
      exact ⟨place, inside, by rw [reads place inside]; exact read⟩
    · rintro ⟨place, inside, read⟩
      exact ⟨place, inside, by rw [← reads place inside]; exact read⟩

/-- A change of a page that no record names keeps the map. -/
theorem represents_other {later : List ValuePage} {index : Nat} {map : Bytes → Option Bytes}
    (content : Content strict htSize db stack records)
    (represents : Represents htSize db records map)
    (unused : ∀ bucket, ∀ entry ∈ records bucket, valueOffset entry ≠ index * valuePageSize)
    (same : ∀ spot, spot ≠ index → later[spot]? = db[spot]?) :
    Represents htSize later records map := by
  intro key value
  rw [represents key value]
  have reads : ∀ place, (key, some place) ∈ records (hash key htSize) →
      later[place / valuePageSize]? = db[place / valuePageSize]? := by
    intro place inside
    exact content.read_other inside (unused _ _ inside) same
  constructor
  · rintro ⟨place, inside, read⟩
    exact ⟨place, inside, by rw [reads place inside]; exact read⟩
  · rintro ⟨place, inside, read⟩
    exact ⟨place, inside, by rw [← reads place inside]; exact read⟩

/-- The page on top of the stack is not the page of a record. -/
theorem taken_unused {index : Nat} {rest : List Nat} (content : Content strict htSize db stack records)
    (taken : FreeStack.take valuePageSize stack = some (index * valuePageSize, rest)) :
    ∀ bucket, ∀ entry ∈ records bucket, valueOffset entry ≠ index * valuePageSize := by
  obtain ⟨found, left, top, unused, -⟩ := content.pages.take (by decide)
  rw [taken, Option.some.injEq, Prod.mk.injEq] at top
  intro bucket entry inside own
  apply unused
  rw [← top.1, ← own]
  exact mem_total.2 ⟨bucket, (content.home bucket entry inside).1, Multiset.mem_map_of_mem valueOffset inside⟩

/-- A new record adds its key to the map. -/
theorem represents_insert {later : List ValuePage} {index : Nat} {rest : List Nat}
    {map : Bytes → Option Bytes} (content : Content strict htSize db stack records)
    (represents : Represents htSize db records map)
    (absent : ∀ entry ∈ records (hash key htSize), entry.1 ≠ key)
    (taken : FreeStack.take valuePageSize stack = some (index * valuePageSize, rest))
    (written : later[index]? = some (ValuePage.init key value))
    (same : ∀ spot, spot ≠ index → later[spot]? = db[spot]?) :
    Represents htSize later (Function.update records (hash key htSize)
      ((key, some (index * valuePageSize)) ::ₘ records (hash key htSize)))
      (Function.update map key (some value)) := by
  have older := content.represents_other represents (content.taken_unused taken) same
  have grown : ∀ other, ∀ entry, entry.1 = other →
      (entry ∈ Function.update records (hash key htSize)
        ((key, some (index * valuePageSize)) ::ₘ records (hash key htSize)) (hash other htSize) ↔
        entry = (key, some (index * valuePageSize)) ∨ entry ∈ records (hash other htSize)) := by
    rintro other entry rfl
    by_cases here : hash entry.1 htSize = hash key htSize
    · rw [here, Function.update_self, Multiset.mem_cons]
    · rw [Function.update_of_ne here]
      constructor
      · exact Or.inr
      · rintro (rfl | inside)
        · exact absurd rfl here
        · exact inside
  intro other found
  by_cases own : other = key
  · subst own
    rw [Function.update_self, Option.some.injEq]
    constructor
    · rintro rfl
      refine ⟨index * valuePageSize, (grown other _ rfl).2 (Or.inl rfl), ?_⟩
      rw [offset_index]
      exact written
    · rintro ⟨place, inside, read⟩
      rcases (grown other _ rfl).1 inside with new | old
      · cases new
        rw [offset_index, written, Option.some.injEq] at read
        exact value_inj read
      · exact absurd rfl (absent _ old)
  · rw [Function.update_of_ne own, older other found]
    constructor
    · rintro ⟨place, inside, read⟩
      exact ⟨place, (grown other _ rfl).2 (Or.inr inside), read⟩
    · rintro ⟨place, inside, read⟩
      rcases (grown other _ rfl).1 inside with new | old
      · cases new
        exact absurd rfl own
      · exact ⟨place, old, read⟩

/-- A record that leaves takes its key from the map. -/
theorem represents_delete {later : List ValuePage} {index : Nat} {remaining : Multiset (Bytes × Off)}
    {map : Bytes → Option Bytes} (content : Content strict htSize db stack records)
    (represents : Represents htSize db records map)
    (split : records (hash key htSize) = (key, some (index * valuePageSize)) ::ₘ remaining)
    (same : ∀ spot, spot ≠ index → later[spot]? = db[spot]?) :
    Represents htSize later (Function.update records (hash key htSize) remaining)
      (Function.update map key none) := by
  have nodup := content.keys (hash key htSize)
  rw [split, Multiset.map_cons, Multiset.nodup_cons] at nodup
  have member : (key, some (index * valuePageSize)) ∈ records (hash key htSize) := by
    rw [split]
    exact Multiset.mem_cons_self _ _
  intro other found
  by_cases own : other = key
  · subst own
    rw [Function.update_self]
    constructor
    · intro impossible
      cases impossible
    · rintro ⟨place, inside, -⟩
      rw [Function.update_self] at inside
      exact absurd (Multiset.mem_map_of_mem Prod.fst inside) nodup.1
  · rw [Function.update_of_ne own, represents other found]
    have stays : ∀ place, (other, some place) ∈
        Function.update records (hash key htSize) remaining (hash other htSize) ↔
        (other, some place) ∈ records (hash other htSize) := by
      intro place
      by_cases here : hash other htSize = hash key htSize
      · rw [here, Function.update_self, split, Multiset.mem_cons]
        constructor
        · exact Or.inr
        · rintro (equal | inside)
          · exact absurd (congrArg Prod.fst equal) own
          · exact inside
      · rw [Function.update_of_ne here]
    have reads : ∀ place, (other, some place) ∈ records (hash other htSize) →
        later[place / valuePageSize]? = db[place / valuePageSize]? := by
      intro place inside
      apply content.read_other inside _ same
      rintro rfl
      have equal := content.unique inside member rfl
      exact own (congrArg Prod.fst equal)
    constructor
    · rintro ⟨place, inside, read⟩
      exact ⟨place, (stays place).2 inside, by rw [reads place inside]; exact read⟩
    · rintro ⟨place, inside, read⟩
      have old := (stays place).1 inside
      exact ⟨place, old, by rw [← reads place old]; exact read⟩

end Content

end SimpleNFast.Rdb
