/-
This file develops doubly linked lists: items with a name and with the names of their neighbours.
-/

import Mathlib.Tactic

namespace SimpleNFast.LinkedList

variable {α β ι : Type}

/-- The items name their neighbours, and the ends name the given outer neighbours. -/
def Joined (name : α → ι) (prev next : α → Option ι) (after : Option ι) : Option ι → List α → Prop
  | _, [] => True
  | before, item :: rest =>
      prev item = before ∧ next item = (rest.head?.map name).or after ∧
        Joined name prev next after (some (name item)) rest

section Rules

variable {name : α → ι} {prev next laterPrev laterNext : α → Option ι} {before after : Option ι}

/-- A list of mapped items is linked when the items are under the mapped views. -/
theorem joined_map {shape : β → α} {items : List β} :
    Joined name prev next after before (items.map shape) ↔
      Joined (name ∘ shape) (prev ∘ shape) (next ∘ shape) after before items := by
  induction items generalizing before with
  | nil => rfl
  | cons item rest restMap =>
      simp only [List.map_cons, Joined, List.head?_map, Option.map_map, Function.comp_apply, restMap]

/-- The links of a list depend on its items only. -/
theorem Joined.congr {items : List α} (joined : Joined name prev next after before items)
    (samePrev : ∀ item ∈ items, laterPrev item = prev item)
    (sameNext : ∀ item ∈ items, laterNext item = next item) :
    Joined name laterPrev laterNext after before items := by
  induction items generalizing before with
  | nil => trivial
  | cons item rest restCongr =>
      obtain ⟨backward, forward, inner⟩ := joined
      rw [← samePrev item (by simp)] at backward
      rw [← sameNext item (by simp)] at forward
      exact ⟨backward, forward, restCongr inner (fun other member => samePrev other (by simp [member]))
        (fun other member => sameNext other (by simp [member]))⟩

/-- The neighbours of an item stand in the list around it. -/
theorem Joined.middle {first last : List α} {item : α}
    (joined : Joined name prev next after before (first ++ item :: last)) :
    prev item = (first.getLast?.map name).or before ∧ next item = (last.head?.map name).or after := by
  induction first generalizing before with
  | nil => exact ⟨joined.1, joined.2.1⟩
  | cons other rest restMiddle =>
      obtain ⟨backward, forward⟩ := restMiddle joined.2.2
      refine ⟨?_, forward⟩
      rw [backward]
      cases rest with
      | nil => rfl
      | cons third rest => simp [List.getLast?_cons]

/-- The next item of an item is the one after it in the list. -/
theorem Joined.next_eq {items : List α} {item : α} {place : Nat}
    (joined : Joined name prev next after before items) (here : items[place]? = some item) :
    next item = (items[place + 1]?.map name).or after := by
  obtain ⟨inside, rfl⟩ := List.getElem?_eq_some_iff.1 here
  have split : items = items.take place ++ items[place] :: items.drop (place + 1) := by
    rw [List.getElem_cons_drop, List.take_append_drop]
  have forward := (split ▸ joined : Joined name prev next after before
    (items.take place ++ items[place] :: items.drop (place + 1))).middle.2
  rw [forward, List.head?_drop]

/-- The first item has the outer neighbour before it. -/
theorem Joined.prev_head {items : List α} {item : α}
    (joined : Joined name prev next after before items) (here : items[0]? = some item) :
    prev item = before := by
  cases items with
  | nil => simp at here
  | cons first rest =>
      simp only [List.getElem?_cons_zero, Option.some.injEq] at here
      rw [← here]
      exact joined.1

/-- The previous item of a later item is the one before it in the list. -/
theorem Joined.prev_succ {items : List α} {item : α} {place : Nat}
    (joined : Joined name prev next after before items) (here : items[place + 1]? = some item) :
    prev item = items[place]?.map name := by
  induction items generalizing before place with
  | nil => simp at here
  | cons first rest restPrev =>
      cases place with
      | zero => exact joined.2.2.prev_head (by simpa using here)
      | succ place =>
          rw [restPrev joined.2.2 (by simpa using here)]
          rfl

/-- No item is its own neighbour. -/
theorem Joined.apart {first last : List α} {item : α}
    (joined : Joined name prev next none none (first ++ item :: last))
    (distinct : ((first ++ item :: last).map name).Nodup) :
    prev item ≠ some (name item) ∧ next item ≠ some (name item) := by
  have around : ((first ++ item :: last).map name).Perm ((item :: (first ++ last)).map name) :=
    List.perm_middle.map _
  have outside := (List.nodup_cons.1 (around.nodup_iff.1 distinct)).1
  obtain ⟨backward, forward⟩ := joined.middle
  rw [backward, forward, Option.or_none, Option.or_none]
  constructor
  · intro same
    obtain ⟨other, final, named⟩ := Option.map_eq_some_iff.1 same
    apply outside
    rw [← named]
    exact List.mem_map_of_mem (List.mem_append_left _ (List.mem_of_getLast? final))
  · intro same
    obtain ⟨other, start, named⟩ := Option.map_eq_some_iff.1 same
    apply outside
    rw [← named]
    exact List.mem_map_of_mem (List.mem_append_right _ (List.mem_of_mem_head? start))

variable [DecidableEq ι]

/-- An item that leaves the list joins its two neighbours. -/
theorem Joined.unlink {first last : List α} {item : α}
    (joined : Joined name prev next after before (first ++ item :: last))
    (distinct : ((first ++ item :: last).map name).Nodup)
    (outerBefore : ∀ other ∈ first ++ item :: last, before ≠ some (name other))
    (outerAfter : ∀ other ∈ first ++ item :: last, after ≠ some (name other))
    (newPrev : ∀ other ∈ first ++ last,
      laterPrev other = if next item = some (name other) then prev item else prev other)
    (newNext : ∀ other ∈ first ++ last,
      laterNext other = if prev item = some (name other) then next item else next other) :
    Joined name laterPrev laterNext after before (first ++ last) := by
  obtain ⟨backward, forward⟩ := joined.middle
  induction first generalizing before with
  | nil =>
      cases last with
      | nil => trivial
      | cons other rest =>
          simp only [List.nil_append, List.map_cons, List.nodup_cons, List.mem_cons, List.mem_map,
            not_or] at distinct newPrev newNext outerBefore outerAfter
          obtain ⟨itemPrev, itemNext, otherPrev, otherNext, inner⟩ := joined
          simp only [List.head?_cons, Option.map_some, Option.some_or] at itemNext
          refine ⟨?_, ?_, ?_⟩
          · rw [newPrev other (Or.inl rfl), if_pos itemNext, itemPrev]
          · rw [newNext other (Or.inl rfl), if_neg, otherNext]
            rw [itemPrev]
            exact outerBefore other (Or.inr (Or.inl rfl))
          · apply inner.congr
            · intro third member
              rw [newPrev third (Or.inr member), if_neg]
              rw [itemNext]
              intro same
              exact distinct.2.1 ⟨third, member, (Option.some.inj same).symm⟩
            · intro third member
              rw [newNext third (Or.inr member), if_neg]
              rw [itemPrev]
              exact outerBefore third (Or.inr (Or.inr member))
  | cons other rest restUnlink =>
      obtain ⟨otherPrev, otherNext, inner⟩ := joined
      have apart : ∀ third ∈ rest ++ item :: last, some (name other) ≠ some (name third) := by
        intro third member same
        apply (List.nodup_cons.1 distinct).1
        rw [Option.some.inj same]
        exact List.mem_map_of_mem member
      have rejoined := restUnlink inner (List.nodup_cons.1 distinct).2 apart
        (fun third member => outerAfter third (List.mem_cons_of_mem _ member))
        (fun third member => newPrev third (List.mem_cons_of_mem _ member))
        (fun third member => newNext third (List.mem_cons_of_mem _ member))
        inner.middle.1
      refine ⟨?_, ?_, rejoined⟩
      · rw [newPrev other (by simp), if_neg, otherPrev]
        rw [forward]
        cases last with
        | nil => exact outerAfter other (by simp)
        | cons third rest => exact (apart third (by simp)).symm
      · rw [newNext other (by simp)]
        cases rest with
        | nil =>
            rw [if_pos (by simpa using backward), forward]
            rfl
        | cons third rest =>
            rw [if_neg, otherNext]
            · rfl
            · rw [inner.middle.1]
              cases final : (third :: rest).getLast? with
              | none => simp at final
              | some fourth =>
                  exact (apart fourth (List.mem_append_left _ (List.mem_of_getLast? final))).symm

/-- A new first item takes the place before the old one. -/
theorem Joined.pushFront {items : List α} {item : α}
    (joined : Joined name prev next after before items)
    (distinct : (items.map name).Nodup)
    (itemPrev : laterPrev item = before) (itemNext : laterNext item = (items.head?.map name).or after)
    (newPrev : ∀ other ∈ items,
      laterPrev other = if items.head?.map name = some (name other) then some (name item) else prev other)
    (sameNext : ∀ other ∈ items, laterNext other = next other) :
    Joined name laterPrev laterNext after before (item :: items) := by
  refine ⟨itemPrev, itemNext, ?_⟩
  cases items with
  | nil => trivial
  | cons other rest =>
      obtain ⟨-, otherNext, inner⟩ := joined
      refine ⟨?_, ?_, ?_⟩
      · rw [newPrev other (by simp), if_pos (by simp)]
      · rw [sameNext other (by simp), otherNext]
      · apply inner.congr
        · intro third member
          rw [newPrev third (by simp [member]), if_neg]
          intro same
          apply (List.nodup_cons.1 distinct).1
          rw [Option.some.inj same]
          exact List.mem_map_of_mem member
        · intro third member
          exact sameNext third (by simp [member])

/-- An item that moves to the front leaves its neighbours to each other. -/
theorem Joined.moveFront {first last : List α} {item : α}
    (joined : Joined name prev next after before (first ++ item :: last))
    (distinct : ((first ++ item :: last).map name).Nodup)
    (outerBefore : ∀ other ∈ first ++ item :: last, before ≠ some (name other))
    (outerAfter : ∀ other ∈ first ++ item :: last, after ≠ some (name other))
    (itemPrev : laterPrev item = before)
    (itemNext : laterNext item = ((first ++ last).head?.map name).or after)
    (newPrev : ∀ other ∈ first ++ last, laterPrev other =
      if (first ++ last).head?.map name = some (name other) then some (name item)
      else if next item = some (name other) then prev item else prev other)
    (newNext : ∀ other ∈ first ++ last,
      laterNext other = if prev item = some (name other) then next item else next other) :
    Joined name laterPrev laterNext after before (item :: (first ++ last)) := by
  have unlinked : Joined name
      (fun other => if next item = some (name other) then prev item else prev other)
      (fun other => if prev item = some (name other) then next item else next other)
      after before (first ++ last) :=
    joined.unlink distinct outerBefore outerAfter (fun _ _ => rfl) (fun _ _ => rfl)
  have around : ((first ++ item :: last).map name).Perm ((item :: (first ++ last)).map name) :=
    List.perm_middle.map _
  exact unlinked.pushFront (List.nodup_cons.1 (around.nodup_iff.1 distinct)).2 itemPrev itemNext
    newPrev newNext

/-- A new last item takes the place after the old one. -/
theorem Joined.append {items : List α} {item : α}
    (joined : Joined name prev next after before items)
    (distinct : (items.map name).Nodup)
    (itemPrev : laterPrev item = (items.getLast?.map name).or before) (itemNext : laterNext item = after)
    (samePrev : ∀ other ∈ items, laterPrev other = prev other)
    (newNext : ∀ other ∈ items, laterNext other =
      if items.getLast?.map name = some (name other) then some (name item) else next other) :
    Joined name laterPrev laterNext after before (items ++ [item]) := by
  induction items generalizing before with
  | nil => exact ⟨itemPrev, by simpa using itemNext, trivial⟩
  | cons other rest restAppend =>
      obtain ⟨otherPrev, otherNext, inner⟩ := joined
      have inside := List.nodup_cons.1 distinct
      have later : ∀ third ∈ rest, (other :: rest).getLast?.map name = rest.getLast?.map name := by
        intro third member
        cases rest with
        | nil => simp at member
        | cons => simp [List.getLast?_cons]
      have rejoined := restAppend inner inside.2
        (by
          rw [itemPrev]
          cases rest with
          | nil => rfl
          | cons => simp [List.getLast?_cons])
        (fun third member => samePrev third (by simp [member]))
        (by
          intro third member
          rw [newNext third (by simp [member]), later third member])
      refine ⟨by rw [samePrev other (by simp), otherPrev], ?_, rejoined⟩
      rw [newNext other (by simp)]
      cases rest with
      | nil => simp
      | cons third rest =>
          rw [later third (by simp), if_neg, otherNext]
          · simp
          · intro same
            apply inside.1
            cases final : (third :: rest).getLast? with
            | none => simp at final
            | some fourth =>
                rw [final] at same
                rw [← Option.some.inj same]
                exact List.mem_map_of_mem (List.mem_of_getLast? final)

end Rules

end SimpleNFast.LinkedList
