/-!
# Sets of states

A set of states is a row of 64-bit words, one bit for each state. The number of words is fixed
when the set is made, so a set can hold the states up to the end of its last word and no others:
adding any other state changes nothing, and a union keeps only what fits.

`contains_insert` and `contains_union` say what the operations do to membership, and `room` counts
the states that could still be added, which is what makes a closure computation end.
-/

namespace ByteRegex

/-- A set of states, one bit each. -/
structure StateSet where
  words : Array UInt64
deriving DecidableEq

namespace StateSet

/-! ## Bits of a word -/

/-- The word with one bit set. -/
def mask (i : Nat) : UInt64 := 1 <<< UInt64.ofNat i

/-- Whether a bit of a word is set. -/
def hasBit (w : UInt64) (i : Nat) : Bool := w &&& mask i != 0

theorem toBitVec_mask {i : Nat} (h : i < 64) : (mask i).toBitVec = BitVec.twoPow 64 i := by
  have hi : i % 18446744073709551616 % 64 = i := by omega
  rw [mask, UInt64.toBitVec_shiftLeft, BitVec.twoPow_eq]
  simp [BitVec.shiftLeft_eq', hi]

theorem hasBit_eq (w : UInt64) {i : Nat} (h : i < 64) : hasBit w i = w.toBitVec.getLsbD i := by
  rw [hasBit, Bool.eq_iff_iff, bne_iff_ne, ne_eq, ← UInt64.toBitVec_inj, UInt64.toBitVec_and,
    toBitVec_mask h, BitVec.and_twoPow]
  cases hw : w.toBitVec.getLsbD i
  · simp
  · simp only [if_true, iff_true]
    intro h0
    have := congrArg (·.getLsbD i) h0
    simp [h] at this

@[simp] theorem hasBit_zero (i : Nat) : hasBit 0 i = false := by
  simp [hasBit]

theorem hasBit_or (v w : UInt64) {i : Nat} (h : i < 64) :
    hasBit (v ||| w) i = (hasBit v i || hasBit w i) := by
  simp [hasBit_eq _ h]

theorem hasBit_or_mask (w : UInt64) {i j : Nat} (hi : i < 64) (hj : j < 64) :
    hasBit (w ||| mask i) j = (hasBit w j || i == j) := by
  rw [hasBit_or _ _ hj, hasBit_eq (mask i) hj, toBitVec_mask hi, BitVec.getLsbD_twoPow]
  simp only [hi, decide_true, Bool.true_and]
  rfl

/-! ## Operations -/

/-- The set without members that can hold at least the states below `capacity`. -/
def empty (capacity : Nat) : StateSet := ⟨Array.replicate ((capacity + 63) / 64) 0⟩

/-- The states that fit are those below this number. -/
def capacity (s : StateSet) : Nat := 64 * s.words.size

/-- Whether a state is a member. -/
def contains (s : StateSet) (q : Nat) : Bool :=
  match s.words[q / 64]? with
  | some w => hasBit w (q % 64)
  | none => false

/-- Add a state, if it fits. -/
def insert (s : StateSet) (q : Nat) : StateSet :=
  ⟨s.words.modify (q / 64) (· ||| mask (q % 64))⟩

/-- Add a state, and say whether it was not there. -/
def insertNew (s : StateSet) (q : Nat) : Bool × StateSet := (!s.contains q, s.insert q)

/-- Add the states of a list that fit. -/
def insertMany (s : StateSet) (qs : List Nat) : StateSet := qs.foldl insert s

/-- The set of the states of a list that fit. -/
def ofList (capacity : Nat) (qs : List Nat) : StateSet := (empty capacity).insertMany qs

/-- Add the members of another set, as far as they fit. -/
def union (s t : StateSet) : StateSet :=
  ⟨s.words.mapIdx fun i w => match t.words[i]? with
    | some v => w ||| v
    | none => w⟩

/-- Whether two sets have a member in common. -/
def intersects (s t : StateSet) : Bool :=
  (s.words.zipWith (fun v w => v &&& w) t.words).any (· != 0)

/-- The members that the word with this place holds. -/
def wordMembers (place : Nat) (w : UInt64) : List Nat :=
  if w = 0 then [] else ((List.range 64).filter (hasBit w)).map (64 * place + ·)

/-- The members in ascending order. -/
def toList (s : StateSet) : List Nat := (s.words.mapIdx wordMembers).toList.flatten

/-- The text of a set. -/
def text (s : StateSet) : String :=
  "\x7b" ++ ", ".intercalate (s.toList.map toString) ++ "\x7d"

/-! ## Membership -/

theorem lt_capacity_of_contains {s : StateSet} {q : Nat} (h : s.contains q = true) :
    q < s.capacity := by
  unfold contains at h
  unfold capacity
  split at h
  · next hw =>
    obtain ⟨hlt, _⟩ := Array.getElem?_eq_some_iff.mp hw
    omega
  · simp at h

@[simp] theorem contains_empty (capacity q : Nat) : (empty capacity).contains q = false := by
  simp only [contains, empty, Array.getElem?_replicate]
  by_cases h : q / 64 < (capacity + 63) / 64 <;> simp [h]

@[simp] theorem capacity_insert (s : StateSet) (q : Nat) :
    (s.insert q).capacity = s.capacity := by
  simp [insert, capacity]

theorem contains_insert (s : StateSet) (q r : Nat) :
    (s.insert q).contains r = (s.contains r || (q == r && decide (q < s.capacity))) := by
  simp only [contains, insert, Array.getElem?_modify, capacity]
  by_cases hw : q / 64 = r / 64
  · rw [if_pos hw]
    cases hr : s.words[r / 64]? with
    | none =>
      have := Array.getElem?_eq_none_iff.mp hr
      have : ¬ q < 64 * s.words.size := by omega
      simp [this]
    | some w =>
      obtain ⟨hlt, _⟩ := Array.getElem?_eq_some_iff.mp hr
      have hcap : q < 64 * s.words.size := by omega
      simp only [Option.map_some, hcap, decide_true, Bool.and_true]
      rw [hasBit_or_mask w (Nat.mod_lt _ (by decide)) (Nat.mod_lt _ (by decide))]
      congr 1
      rw [Bool.eq_iff_iff, beq_iff_eq, beq_iff_eq]
      omega
  · rw [if_neg hw]
    have : (q == r) = false := by
      rw [beq_eq_false_iff_ne]
      rintro rfl
      exact hw rfl
    simp [this]

theorem contains_union (s t : StateSet) (q : Nat) :
    (s.union t).contains q = (s.contains q || (t.contains q && decide (q < s.capacity))) := by
  simp only [contains, union, Array.getElem?_mapIdx, capacity]
  cases hs : s.words[q / 64]? with
  | none =>
    have := Array.getElem?_eq_none_iff.mp hs
    have : ¬ q < 64 * s.words.size := by omega
    simp [this]
  | some w =>
    obtain ⟨hlt, _⟩ := Array.getElem?_eq_some_iff.mp hs
    have hcap : q < 64 * s.words.size := by omega
    cases t.words[q / 64]? <;> simp [hcap, hasBit_or _ _ (Nat.mod_lt q (show 0 < 64 by decide))]

/-! ## Room -/

/-- How many states fit that are not members yet. -/
def room (s : StateSet) : Nat := (List.range s.capacity).countP fun q => !s.contains q

/-- Adding a state that fits and is new leaves less room. -/
theorem room_insert_lt {s : StateSet} {q : Nat} (hq : q < s.capacity)
    (hnew : s.contains q = false) : (s.insert q).room < s.room := by
  unfold room
  rw [capacity_insert]
  have hmem : q ∈ List.range s.capacity := List.mem_range.mpr hq
  obtain ⟨l₁, l₂, hl⟩ := List.append_of_mem hmem
  rw [hl]
  have hle : ∀ l : List Nat, l.countP (fun r => !(s.insert q).contains r)
      ≤ l.countP (fun r => !s.contains r) := by
    intro l
    refine List.countP_mono_left fun r _ h => ?_
    rw [contains_insert] at h
    simp_all
  have h₁ := hle l₁
  have h₂ := hle l₂
  have hin : (s.insert q).contains q = true := by
    rw [contains_insert]; simp [hq]
  simp only [List.countP_append, List.countP_cons, hin, hnew]
  simp
  omega

end StateSet

end ByteRegex
