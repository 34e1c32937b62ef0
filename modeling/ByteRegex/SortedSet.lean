/-!
# Sets kept as ascending lists

A set over an ordered type is the strictly ascending list of its members, so that equal sets are
equal lists. Members come in one at a time (`insert`) or all at once (`ofList`, which sorts and
drops repetitions).

The order is a lawful one throughout: transitive, and with equality as its equality.
-/

namespace ByteRegex

universe u

/-- A set, as the strictly ascending list of its members. -/
structure SortedSet (α : Type u) [Ord α] where
  /-- The members in ascending order. -/
  toList : List α
  ascending : toList.Pairwise (compare · · = .lt)

namespace SortedSet

variable {α : Type u} [Ord α]

/-! ## Operations on ascending lists -/

/-- Put an item at its place in an ascending list, unless it is there already. -/
def insertInto (x : α) : List α → List α
  | [] => [x]
  | y :: ys => match compare x y with
    | .lt => x :: y :: ys
    | .eq => y :: ys
    | .gt => y :: insertInto x ys

/-- Keep one item of each run of equal neighbours. -/
def dropRepeats : List α → List α
  | [] => []
  | [x] => [x]
  | x :: y :: ys => match compare x y with
    | .eq => dropRepeats (y :: ys)
    | _ => x :: dropRepeats (y :: ys)

theorem mem_insertInto [Std.LawfulEqOrd α] {x z : α} {ys : List α} :
    z ∈ insertInto x ys ↔ z = x ∨ z ∈ ys := by
  induction ys with
  | nil => simp [insertInto]
  | cons y ys ih =>
    unfold insertInto
    split
    · simp
    · next h =>
      have := Std.LawfulEqOrd.eq_of_compare h
      subst this
      simp
    · simp only [List.mem_cons, ih]
      constructor
      · rintro (h | h | h) <;> simp [h]
      · rintro (h | h | h) <;> simp [h]

theorem pairwise_insertInto [Std.TransOrd α] [Std.LawfulEqOrd α] (x : α) {ys : List α}
    (h : ys.Pairwise (compare · · = .lt)) :
    (insertInto x ys).Pairwise (compare · · = .lt) := by
  induction ys with
  | nil => simp [insertInto]
  | cons y ys ih =>
    obtain ⟨hy, hys⟩ := List.pairwise_cons.mp h
    unfold insertInto
    split
    · next hlt =>
      refine List.pairwise_cons.mpr ⟨fun z hz => ?_, h⟩
      rcases List.mem_cons.mp hz with rfl | hz
      · exact hlt
      · exact Std.TransCmp.lt_trans hlt (hy z hz)
    · exact h
    · next hgt =>
      refine List.pairwise_cons.mpr ⟨fun z hz => ?_, ih hys⟩
      rcases mem_insertInto.mp hz with rfl | hz
      · exact Std.OrientedCmp.lt_of_gt hgt
      · exact hy z hz

theorem mem_dropRepeats [Std.LawfulEqOrd α] {z : α} (xs : List α) :
    z ∈ dropRepeats xs ↔ z ∈ xs := by
  fun_induction dropRepeats xs with
  | case1 => simp
  | case2 => simp
  | case3 x y ys h ih =>
    have := Std.LawfulEqOrd.eq_of_compare h
    subst this
    simp [ih]
  | case4 x y ys h ih => simp [ih]

theorem pairwise_dropRepeats [Std.TransOrd α] [Std.LawfulEqOrd α] (xs : List α)
    (h : xs.Pairwise (fun a b => (compare a b).isLE)) :
    (dropRepeats xs).Pairwise (compare · · = .lt) := by
  fun_induction dropRepeats xs with
  | case1 => simp
  | case2 => simp
  | case3 x y ys _ ih => exact ih (List.pairwise_cons.mp h).2
  | case4 x y ys hne ih =>
    obtain ⟨hx, hys⟩ := List.pairwise_cons.mp h
    refine List.pairwise_cons.mpr ⟨fun z hz => ?_, ih hys⟩
    have hxy : compare x y = .lt := by
      have := hx y List.mem_cons_self
      cases hc : compare x y <;> simp_all
    rcases List.mem_cons.mp ((mem_dropRepeats _).mp hz) with rfl | hz
    · exact hxy
    · exact Std.TransCmp.lt_of_lt_of_isLE hxy ((List.pairwise_cons.mp hys).1 z hz)

/-! ## Sets -/

/-- The set without members. -/
def empty : SortedSet α := ⟨[], .nil⟩

/-- Whether there are no members. -/
def isEmpty (s : SortedSet α) : Bool := s.toList.isEmpty

/-- Whether an item is a member. -/
def contains (s : SortedSet α) (x : α) : Bool := s.toList.any (compare x · == .eq)

/-- Add an item. -/
def insert [Std.TransOrd α] [Std.LawfulEqOrd α] (s : SortedSet α) (x : α) : SortedSet α :=
  ⟨insertInto x s.toList, pairwise_insertInto x s.ascending⟩

/-- Add an item, and say whether it was new. -/
def insertNew [Std.TransOrd α] [Std.LawfulEqOrd α] (s : SortedSet α) (x : α) :
    Bool × SortedSet α :=
  (!s.contains x, s.insert x)

/-- Add every item of a list. -/
def insertMany [Std.TransOrd α] [Std.LawfulEqOrd α] (s : SortedSet α) (xs : List α) :
    SortedSet α :=
  xs.foldl insert s

/-- A list in ascending order, repetitions included. -/
def sortItems (xs : List α) : List α := xs.mergeSort fun a b => (compare a b).isLE

theorem pairwise_sortItems [Std.TransOrd α] (xs : List α) :
    (sortItems xs).Pairwise (fun a b => (compare a b).isLE) := by
  have htrans : ∀ a b c : α, (compare a b).isLE = true → (compare b c).isLE = true →
      (compare a c).isLE = true := fun _ _ _ hab hbc => Std.TransCmp.isLE_trans hab hbc
  have htotal : ∀ a b : α, ((compare a b).isLE || (compare b a).isLE) = true := by
    intro a b
    rw [show compare b a = (compare a b).swap from Std.OrientedCmp.eq_swap]
    cases compare a b <;> rfl
  exact List.pairwise_mergeSort htrans htotal xs

/-- The set of the items of a list. -/
def ofList [Std.TransOrd α] [Std.LawfulEqOrd α] (xs : List α) : SortedSet α :=
  ⟨dropRepeats (sortItems xs), pairwise_dropRepeats _ (pairwise_sortItems xs)⟩

theorem mem_ofList [Std.TransOrd α] [Std.LawfulEqOrd α] {xs : List α} {z : α} :
    z ∈ (ofList xs).toList ↔ z ∈ xs := by
  rw [ofList, mem_dropRepeats]
  exact (List.mergeSort_perm _ _).mem_iff

theorem mem_insert [Std.TransOrd α] [Std.LawfulEqOrd α] {s : SortedSet α} {x z : α} :
    z ∈ (s.insert x).toList ↔ z = x ∨ z ∈ s.toList :=
  mem_insertInto

theorem contains_iff [Std.TransOrd α] [Std.LawfulEqOrd α] {s : SortedSet α} {x : α} :
    s.contains x = true ↔ x ∈ s.toList := by
  simp only [contains, List.any_eq_true, beq_iff_eq]
  constructor
  · rintro ⟨y, hy, h⟩
    rwa [Std.LawfulEqOrd.eq_of_compare h]
  · exact fun h => ⟨x, h, Std.ReflCmp.compare_self⟩

end SortedSet

end ByteRegex
