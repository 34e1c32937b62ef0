import ByteRegex.Nfa.StateSet
import ByteRegex.Proofs.Basic
import Mathlib.Data.Set.Insert

/-!
# Sets of states are bounded sets of numbers

A set of states is a row of words, so it has room for the states up to the end of its last word
(`StateSet.capacity`). What fits is kept, and a union drops what does not fit. Two sets need not
have the same number of words: whether they have a member in common shows in the words that both
have (`StateSet.intersects_iff`).

Main statement: `StateSet.after_holds`.
-/

namespace ByteRegex

namespace StateSet

variable {s t : StateSet} {qs : List Nat} {n q r place : Nat} {v w : UInt64}

/-! ## Many states at once -/

theorem le_capacity_empty (n : Nat) : n ≤ (empty n).capacity := by
  rw [capacity, empty, Array.size_replicate]
  omega

theorem capacity_insertMany (s : StateSet) (qs : List Nat) :
    (s.insertMany qs).capacity = s.capacity := by
  unfold insertMany
  induction qs generalizing s with
  | nil => rfl
  | cons q qs ih => rw [List.foldl_cons, ih, capacity_insert]

theorem le_capacity_ofList (n : Nat) (qs : List Nat) : n ≤ (ofList n qs).capacity := by
  rw [ofList, capacity_insertMany]
  exact le_capacity_empty n

theorem contains_insertMany :
    (s.insertMany qs).contains r = true ↔
      s.contains r = true ∨ r < s.capacity ∧ r ∈ qs := by
  have h : (s.insertMany qs).contains r = true ↔
      s.contains r = true ∨ ∃ q ∈ qs, q = r ∧ r < s.capacity := by
    refine (foldl_iff (I := fun t => t.capacity = s.capacity) (P := fun t => t.contains r = true)
      rfl fun t q _ ht => ⟨(capacity_insert t q).trans ht, ?_⟩).2
    rw [contains_insert, Bool.or_eq_true, Bool.and_eq_true, beq_iff_eq, decide_eq_true_iff, ht]
    exact or_congr_right ⟨fun ⟨h, hlt⟩ => ⟨h, h ▸ hlt⟩, fun ⟨h, hlt⟩ => ⟨h, h ▸ hlt⟩⟩
  rw [h]
  refine or_congr_right ⟨?_, fun ⟨hlt, hr⟩ => ⟨r, hr, rfl, hlt⟩⟩
  rintro ⟨_, hq, rfl, hlt⟩
  exact ⟨hlt, hq⟩

theorem contains_ofList (h : ∀ q ∈ qs, q < n) : (ofList n qs).contains r = true ↔ r ∈ qs := by
  rw [ofList, contains_insertMany, contains_empty]
  constructor
  · rintro (h' | ⟨-, hr⟩)
    · cases h'
    · exact hr
  · exact fun hr => .inr ⟨Nat.lt_of_lt_of_le (h r hr) (le_capacity_empty n), hr⟩

/-! ## Members in order -/

theorem mem_wordMembers :
    q ∈ wordMembers place w ↔ q / 64 = place ∧ hasBit w (q % 64) = true := by
  unfold wordMembers
  split
  · next h => simp [h]
  · simp only [List.mem_map, List.mem_filter, List.mem_range]
    constructor
    · rintro ⟨i, ⟨hi, hbit⟩, rfl⟩
      rw [Nat.mul_add_mod, Nat.mod_eq_of_lt hi]
      exact ⟨by omega, hbit⟩
    · rintro ⟨rfl, hbit⟩
      exact ⟨q % 64, ⟨Nat.mod_lt _ (by decide), hbit⟩, Nat.div_add_mod q 64⟩

theorem mem_toList : q ∈ t.toList ↔ t.contains q = true := by
  unfold toList contains
  simp only [List.mem_flatten, Array.mem_toList_iff, Array.mem_mapIdx]
  constructor
  · rintro ⟨_, ⟨i, hi, rfl⟩, hq⟩
    obtain ⟨rfl, hbit⟩ := mem_wordMembers.mp hq
    rw [Array.getElem?_eq_getElem hi]
    exact hbit
  · intro h
    split at h
    · next w hw =>
      obtain ⟨hlt, rfl⟩ := Array.getElem?_eq_some_iff.mp hw
      exact ⟨_, ⟨q / 64, hlt, rfl⟩, mem_wordMembers.mpr ⟨rfl, h⟩⟩
    · cases h

theorem pairwise_wordMembers : (wordMembers place w).Pairwise (· < ·) := by
  unfold wordMembers
  split
  · exact .nil
  · refine List.Pairwise.map _ (fun _ _ h => Nat.add_lt_add_left h _) ?_
    exact List.pairwise_lt_range.filter _

/-- **The members are listed in ascending order**, because those of a word are less than those of
any word behind it. -/
theorem pairwise_toList (s : StateSet) : s.toList.Pairwise (· < ·) := by
  rw [toList, Array.toList_mapIdx, List.pairwise_flatten]
  refine ⟨fun l hl => ?_, List.pairwise_iff_getElem.mpr fun i j hi hj hij p hp q hq => ?_⟩
  · obtain ⟨i, hi, rfl⟩ := List.mem_mapIdx.mp hl
    exact pairwise_wordMembers
  · rw [List.getElem_mapIdx] at hp hq
    have hdiv : p / 64 < q / 64 := by
      rwa [(mem_wordMembers.mp hp).1, (mem_wordMembers.mp hq).1]
    exact Nat.lt_of_div_lt_div hdiv

/-! ## Members in common -/

theorem hasBit_and (v w : UInt64) {i : Nat} (h : i < 64) :
    hasBit (v &&& w) i = (hasBit v i && hasBit w i) := by
  simp [hasBit_eq _ h]

theorem ne_zero_iff : w ≠ 0 ↔ ∃ i < 64, hasBit w i = true := by
  refine ⟨fun hne => ?_, ?_⟩
  · by_contra hnone
    refine hne (UInt64.toBitVec_inj.mp (BitVec.eq_of_getLsbD_eq fun i hi => ?_))
    rw [← hasBit_eq w hi, Bool.eq_false_iff.mpr fun hbit => hnone ⟨i, hi, hbit⟩]
    exact BitVec.getLsbD_zero.symm
  · rintro ⟨i, -, hbit⟩ rfl
    rw [hasBit_zero] at hbit
    cases hbit

/-- **Sets have a member in common exactly if two of their words have a bit in common**, at the same
place. A place that only one of them has holds no common member. -/
theorem intersects_iff :
    s.intersects t = true ↔ ∃ q, s.contains q = true ∧ t.contains q = true := by
  rw [intersects, Array.any_eq_true]
  simp only [Array.size_zipWith, Array.getElem_zipWith, bne_iff_ne, ne_zero_iff, contains]
  constructor
  · rintro ⟨place, hplace, i, hi, hbit⟩
    rw [hasBit_and _ _ hi, Bool.and_eq_true] at hbit
    have hdiv : (64 * place + i) / 64 = place := by omega
    have hmod : (64 * place + i) % 64 = i := by omega
    refine ⟨64 * place + i, ?_⟩
    rw [hdiv, hmod, Array.getElem?_eq_getElem, Array.getElem?_eq_getElem]
    exact hbit
  · rintro ⟨q, hs, ht⟩
    split at hs
    · next v hv =>
      split at ht
      · next w hw =>
        obtain ⟨hvlt, rfl⟩ := Array.getElem?_eq_some_iff.mp hv
        obtain ⟨hwlt, rfl⟩ := Array.getElem?_eq_some_iff.mp hw
        have hmod : q % 64 < 64 := Nat.mod_lt _ (by decide)
        refine ⟨q / 64, by omega, q % 64, hmod, ?_⟩
        rw [hasBit_and _ _ hmod, hs, ht]
        rfl
      · cases ht
    · cases hs

/-! ## Changes of a set -/

/-- A change of a set of states. -/
inductive Change where
  | insert (q : Nat)
  | union (t : StateSet)

/-- What a change makes of a set. -/
def Change.onSet (s : StateSet) : Change → StateSet
  | insert q => (s.insertNew q).2
  | union t => s.union t

/-- The set after some changes of the set without members that can hold the states below `n`. -/
def after (n : Nat) (changes : List Change) : StateSet := changes.foldl Change.onSet (empty n)

/-- Whether a change brings a state. -/
def Change.Brings (r : Nat) : Change → Prop
  | insert q => q = r
  | union t => t.contains r = true

/-- The states that are added, and those that come with a union and fit. -/
def membersAfter (n : Nat) (changes : List Change) : Set Nat :=
  {q | .insert q ∈ changes ∨
    ∃ t, .union t ∈ changes ∧ t.contains q = true ∧ q < (empty n).capacity}

theorem capacity_union (s t : StateSet) : (s.union t).capacity = s.capacity := by
  rw [capacity, union, Array.size_mapIdx, capacity]

theorem capacity_empty (n : Nat) : (empty n).capacity = 64 * ((n + 63) / 64) := by
  rw [capacity, empty, Array.size_replicate]

/-- A change leaves the room as it is, and adds what it brings as far as it fits. -/
theorem Change.onSet_spec (s : StateSet) (change : Change) :
    (change.onSet s).capacity = s.capacity ∧
      ((change.onSet s).contains r = true ↔
        s.contains r = true ∨ change.Brings r ∧ r < s.capacity) := by
  cases change with
  | insert q =>
    refine ⟨capacity_insert s q, ?_⟩
    change (s.insert q).contains r = true ↔ s.contains r = true ∨ q = r ∧ r < s.capacity
    rw [contains_insert, Bool.or_eq_true, Bool.and_eq_true, beq_iff_eq, decide_eq_true_iff]
    exact or_congr_right (and_congr_right fun h => h ▸ Iff.rfl)
  | union t =>
    refine ⟨capacity_union s t, ?_⟩
    change (s.union t).contains r = true ↔
      s.contains r = true ∨ t.contains r = true ∧ r < s.capacity
    rw [contains_union, Bool.or_eq_true, Bool.and_eq_true, decide_eq_true_iff]

/-- **What was brought and fits is there**, after any changes. -/
theorem contains_after (n : Nat) (changes : List Change) :
    (after n changes).capacity = (empty n).capacity ∧
      ((after n changes).contains r = true ↔
        (∃ change ∈ changes, change.Brings r) ∧ r < (empty n).capacity) := by
  have hrun := foldl_iff (I := fun s => s.capacity = (empty n).capacity)
    (P := fun s => s.contains r = true)
    (Q := fun change => change.Brings r ∧ r < (empty n).capacity)
    (l := changes) (b := empty n) rfl fun s change _ hs => by
      obtain ⟨hcapacity, hcontains⟩ := change.onSet_spec (r := r) s
      exact ⟨hcapacity.trans hs, hs ▸ hcontains⟩
  refine ⟨hrun.1, hrun.2.trans ?_⟩
  rw [contains_empty]
  simp [exists_and_right, ← and_assoc]

theorem contains_after_iff {changes : List Change}
    (hfits : ∀ q, .insert q ∈ changes → q < (empty n).capacity) :
    (after n changes).contains r = true ↔ r ∈ membersAfter n changes := by
  rw [(contains_after n changes).2]
  constructor
  · rintro ⟨⟨change, hmem, hbrings⟩, hlt⟩
    cases change with
    | insert q => exact .inl (hbrings ▸ hmem)
    | union t => exact .inr ⟨t, hmem, hbrings, hlt⟩
  · rintro (hmem | ⟨t, hmem, ht, hlt⟩)
    · exact ⟨⟨.insert r, hmem, rfl⟩, hfits r hmem⟩
    · exact ⟨⟨.union t, hmem, ht⟩, hlt⟩

/-! ## Main statement -/

/-- What a set of states says of its members, and what the next change does. -/
structure Holds (s : StateSet) (members : Set Nat) : Prop where
  contains_iff : ∀ q, s.contains q = true ↔ q ∈ members
  lt_capacity : ∀ q ∈ members, q < s.capacity
  mem_toList_iff : ∀ q, q ∈ s.toList ↔ q ∈ members
  ascending : s.toList.Pairwise (· < ·)
  insertNew_fst : ∀ q < s.capacity, (s.insertNew q).1 = true ↔ q ∉ members
  contains_insertNew : ∀ q < s.capacity, ∀ r,
    (s.insertNew q).2.contains r = true ↔ r ∈ Insert.insert q members
  contains_union : ∀ t r, (s.union t).contains r = true ↔
    r ∈ members ∨ t.contains r = true ∧ r < s.capacity
  intersects_iff : ∀ t, s.intersects t = true ↔ ∃ q ∈ members, t.contains q = true

/-- A set of states holds what it contains. -/
theorem holds (s : StateSet) : s.Holds {q | s.contains q = true} where
  contains_iff _ := Iff.rfl
  lt_capacity _ h := lt_capacity_of_contains h
  mem_toList_iff _ := mem_toList
  ascending := pairwise_toList s
  insertNew_fst _ _ := by simp [insertNew]
  contains_insertNew q hq r := by
    refine ((Change.insert q).onSet_spec s).2.trans ⟨?_, ?_⟩
    · rintro (h | ⟨rfl, -⟩)
      · exact .inr h
      · exact .inl rfl
    · rintro (rfl | h)
      · exact .inr ⟨rfl, hq⟩
      · exact .inl h
  contains_union t r := by simp [StateSet.contains_union]
  intersects_iff t := StateSet.intersects_iff

/-- **A set of states is a set of numbers with a bound**, after any changes: its members are the
states that were added, and those that came with a union and lie before the end of its last word.
That end is the least multiple of 64 that is not less than the number of states it was made for, so
states of 32 bits stay states of 32 bits. -/
theorem after_holds (n : Nat) (changes : List Change) (hn : n ≤ UInt32.size)
    (hfits : ∀ q, .insert q ∈ changes → q < (empty n).capacity) :
    (after n changes).capacity = 64 * ((n + 63) / 64) ∧ (after n changes).capacity ≤ UInt32.size ∧
      (after n changes).Holds (membersAfter n changes) := by
  have hcapacity := (contains_after (r := 0) n changes).1.trans (capacity_empty n)
  have hmembers : {q | (after n changes).contains q = true} = membersAfter n changes :=
    Set.ext fun q => contains_after_iff hfits
  have hsize : UInt32.size = 64 * 67108864 := rfl
  refine ⟨hcapacity, by omega, ?_⟩
  rw [← hmembers]
  exact holds _

/-- A union with a larger set, of which two members fit and two do not. -/
theorem after_holds_union :
    let changes : List Change := [.insert 64, .union (ofList 200 [65, 127, 128, 199]), .insert 0]
    let s := after 70 changes
    70 ≤ UInt32.size ∧ (∀ q, .insert q ∈ changes → q < (empty 70).capacity) ∧ s.capacity = 128 ∧
      s.toList = [0, 64, 65, 127] ∧ s.Holds (membersAfter 70 changes) := by
  intro changes s
  have hfits : ∀ q, .insert q ∈ changes → q < (empty 70).capacity := by
    intro q hq
    simp [changes] at hq
    rcases hq with rfl | rfl <;> decide
  obtain ⟨hcapacity, -, hholds⟩ := after_holds 70 changes (by decide) hfits
  refine ⟨by decide, hfits, hcapacity, ?_, hholds⟩
  decide +kernel

end StateSet

end ByteRegex
