import ByteRegex.SortedSet
import Mathlib.Data.List.Sort
import Mathlib.Data.Set.Insert

/-!
# Ascending lists are sets

A set is filled in two ways. Items that come one at a time are looked up by halving, which finds
either the item or the place where it belongs (`SortedSet.search`). Items that come all at once are
sorted, and repetitions are dropped. Halving is right in an ascending list only, so each change has
to leave the list ascending for the next one.

Both ways lead to the same form, because the members of a set have one ascending list only
(`SortedSet.ext_mem`). So a list of items that is changed again and again is at any time the
ascending list of the members that a set has after the same changes.

Main statement: `SortedSet.after_lists`.
-/

namespace ByteRegex

universe u

variable {α : Type u}

/-- Where an item stands in an ascending list: at a place, or nowhere, and then at which place it
belongs. -/
inductive Slot where
  | taken (i : Nat)
  | free (i : Nat)

section Slots

variable [Ord α] {x y : α} {items : List α} {i lo hi : Nat}

/-- What it means that an item stands at a slot, or belongs there. -/
def Slot.IsOf (x : α) (items : List α) : Slot → Prop
  | taken i => items[i]? = some x
  | free i => i ≤ items.length ∧ (∀ y ∈ items.take i, compare y x = .lt) ∧
      ∀ y ∈ items.drop i, compare x y = .lt

/-- An item that belongs somewhere is not there yet. -/
theorem Slot.IsOf.not_mem [Std.OrientedOrd α] (h : (free i).IsOf x items) : x ∉ items := by
  obtain ⟨-, hbefore, hbehind⟩ := h
  intro hx
  rw [← List.take_append_drop i items, List.mem_append] at hx
  have hself : compare x x = .lt := hx.elim (hbefore x) (hbehind x)
  exact Std.OrientedCmp.not_lt_of_lt hself hself

namespace SortedSet

/-! ## Looking up by halving -/

/-- Look for an item at the places from `lo` on that are less than `hi`. -/
def search (x : α) (items : List α) (lo hi : Nat) : Slot :=
  if lo < hi then
    match items[lo + (hi - lo) / 2]? with
    | none => .free lo
    | some y => match compare x y with
      | .lt => search x items lo (lo + (hi - lo) / 2)
      | .eq => .taken (lo + (hi - lo) / 2)
      | .gt => search x items (lo + (hi - lo) / 2 + 1) hi
  else .free lo
termination_by hi - lo

/-- If the item at a place is less than `x`, so are the items in front of it. -/
theorem lt_of_mem_take [Std.TransOrd α] (h : items.Pairwise (compare · · = .lt))
    (hy : items[i]? = some y) (hlt : compare y x = .lt) :
    ∀ z ∈ items.take (i + 1), compare z x = .lt := by
  obtain ⟨hi, rfl⟩ := List.getElem?_eq_some_iff.mp hy
  intro z hz
  obtain ⟨j, hj, rfl⟩ := List.mem_take_iff_getElem.mp hz
  rcases Nat.lt_or_eq_of_le (show j ≤ i by omega) with hji | rfl
  · exact Std.TransCmp.lt_trans (List.pairwise_iff_getElem.mp h j i _ hi hji) hlt
  · exact hlt

/-- If the item at a place is greater than `x`, so are the items behind it. -/
theorem lt_of_mem_drop [Std.TransOrd α] (h : items.Pairwise (compare · · = .lt))
    (hy : items[i]? = some y) (hlt : compare x y = .lt) :
    ∀ z ∈ items.drop i, compare x z = .lt := by
  obtain ⟨hi, rfl⟩ := List.getElem?_eq_some_iff.mp hy
  intro z hz
  obtain ⟨j, hj, rfl⟩ := List.mem_drop_iff_getElem.mp hz
  rcases Nat.eq_zero_or_pos j with rfl | hpos
  · exact hlt
  · exact Std.TransCmp.lt_trans hlt (List.pairwise_iff_getElem.mp h i (i + j) hi _ (by omega))

/-- **Halving an ascending list finds the slot of an item**, if the item does not belong to the
places that are left out. -/
theorem isOf_search [Std.TransOrd α] [Std.LawfulEqOrd α] (h : items.Pairwise (compare · · = .lt))
    (hhi : hi ≤ items.length) (hle : lo ≤ hi) (hbefore : ∀ y ∈ items.take lo, compare y x = .lt)
    (hbehind : ∀ y ∈ items.drop hi, compare x y = .lt) : (search x items lo hi).IsOf x items := by
  fun_induction search x items lo hi with
  | case1 lo hi hlt hnone =>
    rw [List.getElem?_eq_none_iff] at hnone
    omega
  | case2 lo hi hlt y hy hcmp ih =>
    exact ih (by omega) (by omega) hbefore (lt_of_mem_drop h hy hcmp)
  | case3 lo hi hlt y hy hcmp =>
    rw [Slot.IsOf, hy, Std.LawfulEqOrd.eq_of_compare hcmp]
  | case4 lo hi hlt y hy hcmp ih =>
    exact ih hhi (by omega) (lt_of_mem_take h hy (Std.OrientedCmp.lt_of_gt hcmp)) hbehind
  | case5 lo hi hlt =>
    obtain rfl : lo = hi := by omega
    exact ⟨hhi, hbefore, hbehind⟩

/-- Put an item at the place where it belongs, and say whether it was new. -/
def place (items : List α) (x : α) : Bool × List α :=
  match search x items 0 items.length with
  | .taken _ => (false, items)
  | .free i => (true, items.insertIdx i x)

theorem insertInto_of_mem [Std.TransOrd α] (h : items.Pairwise (compare · · = .lt))
    (hx : x ∈ items) : insertInto x items = items := by
  induction items with
  | nil => cases hx
  | cons y items ih =>
    obtain ⟨hy, hitems⟩ := List.pairwise_cons.mp h
    rcases List.mem_cons.mp hx with rfl | hx
    · have hself : compare x x = .eq := Std.ReflCmp.compare_self
      rw [insertInto, hself]
    · have hgt : compare x y = .gt := Std.OrientedCmp.gt_of_lt (hy x hx)
      rw [insertInto, hgt]
      exact congrArg (y :: ·) (ih hitems hx)

theorem insertInto_of_free [Std.OrientedOrd α] (h : (Slot.free i).IsOf x items) :
    insertInto x items = items.insertIdx i x := by
  induction items generalizing i with
  | nil =>
    obtain rfl : i = 0 := Nat.eq_zero_of_le_zero h.1
    rfl
  | cons y items ih =>
    obtain ⟨hle, hbefore, hbehind⟩ := h
    cases i with
    | zero => rw [insertInto, hbehind y List.mem_cons_self, List.insertIdx_zero]
    | succ i =>
      rw [List.take_succ_cons] at hbefore
      have hgt : compare x y = .gt := Std.OrientedCmp.gt_of_lt (hbefore y List.mem_cons_self)
      have hrest : (Slot.free i).IsOf x items :=
        ⟨Nat.le_of_succ_le_succ hle, fun z hz => hbefore z (List.mem_cons_of_mem y hz), hbehind⟩
      rw [insertInto, hgt, List.insertIdx_succ_cons]
      exact congrArg (y :: ·) (ih hrest)

/-- **Placing an item by halving adds it to the set.** -/
theorem place_eq [Std.TransOrd α] [Std.LawfulEqOrd α] (s : SortedSet α) (x : α) :
    place s.toList x = ((s.insertNew x).1, (s.insertNew x).2.toList) := by
  have hslot : (search x s.toList 0 s.toList.length).IsOf x s.toList :=
    isOf_search s.ascending (Nat.le_refl _) (Nat.zero_le _) (fun _ hy => nomatch hy) (by simp)
  change place s.toList x = (!s.contains x, insertInto x s.toList)
  unfold place
  split
  · next i hi =>
    rw [hi] at hslot
    have hx : x ∈ s.toList := List.mem_of_getElem? hslot
    rw [contains_iff.mpr hx, insertInto_of_mem s.ascending hx]
    rfl
  · next i hi =>
    rw [hi] at hslot
    have hx : s.contains x = false := Bool.eq_false_iff.mpr (mt contains_iff.mp hslot.not_mem)
    rw [hx, insertInto_of_free hslot]
    rfl

end SortedSet

end Slots

namespace SortedSet

/-! ## Changes of a set -/

/-- A change of a set. -/
inductive Change (α : Type u) where
  /-- Start again with the items of a list. -/
  | ofList (xs : List α)
  | insert (x : α)
  | insertMany (xs : List α)
  | clear

/-- What a change makes of the members of a set. -/
def Change.onMembers (members : Set α) : Change α → Set α
  | ofList xs => {x | x ∈ xs}
  | insert x => Insert.insert x members
  | insertMany xs => members ∪ {x | x ∈ xs}
  | clear => ∅

/-- The members after some changes of the set without members. -/
def membersAfter (changes : List (Change α)) : Set α := changes.foldl Change.onMembers ∅

variable [Ord α] {s t : SortedSet α} {x : α} {xs : List α}

/-- What a change makes of a list of items. -/
def Change.onItems (items : List α) : Change α → List α
  | ofList xs => dropRepeats (sortItems xs)
  | insert x => (place items x).2
  | insertMany xs => xs.foldl (fun items x => (place items x).2) items
  | clear => []

/-- The items after some changes of the list without items. -/
def itemsAfter (changes : List (Change α)) : List α := changes.foldl Change.onItems []

variable [Std.TransOrd α] [Std.LawfulEqOrd α]

/-- What a change makes of a set. -/
def Change.onSet (s : SortedSet α) : Change α → SortedSet α
  | ofList xs => SortedSet.ofList xs
  | insert x => (s.insertNew x).2
  | insertMany xs => s.insertMany xs
  | clear => empty

/-- The set after some changes of the set without members. -/
def after (changes : List (Change α)) : SortedSet α := changes.foldl Change.onSet empty

omit [Std.LawfulEqOrd α] in
/-- **Sets with the same members are equal.** -/
theorem ext_mem (h : ∀ x, x ∈ s.toList ↔ x ∈ t.toList) : s = t := by
  have : Std.Irrefl fun x y : α => compare x y = .lt :=
    ⟨fun x hx => Std.OrientedCmp.not_lt_of_lt hx hx⟩
  have : Std.Antisymm fun x y : α => compare x y = .lt :=
    ⟨fun x y hxy hyx => absurd hyx (Std.OrientedCmp.not_lt_of_lt hxy)⟩
  have htoList : s.toList = t.toList := s.ascending.eq_of_mem_iff t.ascending h
  cases s
  cases t
  cases htoList
  rfl

theorem mem_insertMany : x ∈ (s.insertMany xs).toList ↔ x ∈ s.toList ∨ x ∈ xs := by
  unfold insertMany
  induction xs generalizing s with
  | nil => simp
  | cons y xs ih => rw [List.foldl_cons, ih, mem_insert, List.mem_cons, or_assoc, or_left_comm]

/-- Items that are placed one by one are added to the set. -/
theorem foldl_place (s : SortedSet α) (xs : List α) :
    xs.foldl (fun items x => (place items x).2) s.toList = (s.insertMany xs).toList :=
  List.foldl_hom toList fun s x => congrArg Prod.snd (place_eq s x)

/-- Each change does to the list of items what it does to the set. -/
theorem Change.onItems_toList (s : SortedSet α) (change : Change α) :
    change.onItems s.toList = (change.onSet s).toList := by
  cases change with
  | ofList xs => rfl
  | insert x => exact congrArg Prod.snd (place_eq s x)
  | insertMany xs => exact foldl_place s xs
  | clear => rfl

/-- Each change does to the members what it does to the set. -/
theorem Change.onMembers_mem (s : SortedSet α) (change : Change α) :
    change.onMembers {x | x ∈ s.toList} = {x | x ∈ (change.onSet s).toList} := by
  ext x
  cases change with
  | ofList xs => exact mem_ofList.symm
  | insert x => exact mem_insert.symm
  | insertMany xs => exact mem_insertMany.symm
  | clear => exact iff_of_false (fun h => h) List.not_mem_nil

/-- **The items after some changes are those of the set.** -/
theorem itemsAfter_eq (changes : List (Change α)) :
    itemsAfter changes = (after changes).toList := by
  change changes.foldl Change.onItems (empty : SortedSet α).toList = (after changes).toList
  exact List.foldl_hom toList Change.onItems_toList

/-- **The members after some changes are those of the set.** -/
theorem mem_after (changes : List (Change α)) :
    x ∈ (after changes).toList ↔ x ∈ membersAfter changes := by
  have hempty : {x : α | x ∈ (empty : SortedSet α).toList} = ∅ := by simp [empty]
  have hmembers : membersAfter changes = {x | x ∈ (after changes).toList} := by
    rw [membersAfter, ← hempty]
    exact List.foldl_hom (fun s : SortedSet α => {x | x ∈ s.toList}) Change.onMembers_mem
  rw [hmembers]
  exact Iff.rfl

/-! ## Main statement -/

/-- Items are the ascending list of some members, and an item can be placed among them exactly if
it is none of those. -/
structure Lists (items : List α) (members : Set α) : Prop where
  ascending : items.Pairwise (compare · · = .lt)
  mem_iff : ∀ x, x ∈ items ↔ x ∈ members
  place_fst : ∀ x, (place items x).1 = true ↔ x ∉ members

/-- **A list of items is a set, whatever was done to it.** After any changes it is the ascending
list of the members after the same changes, and an item is new exactly if it is no member. The set
that looks for an item from its start has the same items, and the same items are new to it. A list
gives the same set all at once as its items one by one, in any order. -/
theorem after_lists (changes : List (Change α)) :
    Lists (itemsAfter changes) (membersAfter changes) ∧
      (after changes).toList = itemsAfter changes ∧
      (∀ x, ((after changes).insertNew x).1 = (place (itemsAfter changes) x).1) ∧
      ∀ xs ys : List α, ys.Perm xs → after (ys.map .insert) = after [.ofList xs] := by
  have hplace : ∀ x, place (itemsAfter changes) x =
      (((after changes).insertNew x).1, ((after changes).insertNew x).2.toList) := by
    intro x
    rw [itemsAfter_eq, place_eq]
  refine ⟨⟨?_, fun x => ?_, fun x => ?_⟩, (itemsAfter_eq changes).symm, fun x => ?_,
    fun xs ys hperm => ?_⟩
  · rw [itemsAfter_eq]
    exact (after changes).ascending
  · rw [itemsAfter_eq, mem_after]
  · rw [hplace, ← mem_after, ← contains_iff, Bool.not_eq_true]
    exact iff_of_eq (Bool.not_eq_true' _)
  · rw [hplace]
  · refine ext_mem fun x => ?_
    have hinserts : after (ys.map .insert) = empty.insertMany ys := List.foldl_map
    rw [hinserts, mem_insertMany, show after [.ofList xs] = ofList xs from rfl, mem_ofList,
      hperm.mem_iff]
    exact or_iff_right List.not_mem_nil

/-- A list with a repetition replaces what was there, and only one of two further items is new. -/
theorem after_lists_replaced :
    let changes : List (Change Int) := [.insert 3, .ofList [9, -2, 7, -2], .insertMany [4, 9]]
    (after changes).toList = [-2, 4, 7, 9] ∧ Lists [-2, 4, 7, 9] (membersAfter changes) ∧
      ((after changes).insertNew 7).1 = false ∧ [7, 9, 7].Perm [7, 7, 9] ∧
      after [.insert 7, .insert 9, .insert 7] = after [.ofList ([7, 7, 9] : List Int)] := by
  intro changes
  obtain ⟨hlists, hitems, -, hperm⟩ := after_lists changes
  have hset : after changes = ⟨[-2, 4, 7, 9], by decide⟩ := by
    refine ext_mem fun x => ?_
    rw [hitems, hlists.mem_iff]
    simp [changes, membersAfter, Change.onMembers]
    omega
  rw [← hitems, hset] at hlists
  rw [hset]
  exact ⟨rfl, hlists, rfl, by decide, hperm [7, 7, 9] [7, 9, 7] (by decide)⟩

end SortedSet

end ByteRegex
