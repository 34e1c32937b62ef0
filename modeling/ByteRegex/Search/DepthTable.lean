/-!
# Depth tables

A depth table records, for each position and state, the smallest number of edges after which a
search was there. Rows are positions and are added as they are needed; columns are states. Depths
are recorded in 32 bits, of which the greatest value, `unseen`, says that a search was not there
yet; greater depths are recorded as the one before it.

A table outlives a search: `clear` wipes the rows that the last search touched and keeps the
others, which it left alone.

`weight` adds up the entries that a search can reach. Every record lowers it (`weight_record_lt`),
so only finitely many records can be made.
-/

namespace ByteRegex

/-- The smallest depth at which each state was reached at each position. -/
structure DepthTable where
  /-- The number of states. -/
  width : Nat
  rows : Array (Array Nat)
  /-- The rows from here on have not been touched since the last clearing. -/
  used : Nat

namespace DepthTable

/-! ## Entries -/

/-- The entry of a state that was not reached. -/
def unseen : Nat := 0xFFFFFFFF

/-- The depth that is recorded for a depth. -/
def recorded (depth : Nat) : Nat := min depth (unseen - 1)

/-- A table without rows. -/
def empty (width : Nat) : DepthTable := ⟨width, #[], 0⟩

/-- The entry for a position and a state. What is no state has the entry 0, which no depth
improves on. -/
def entry (t : DepthTable) (pos state : Nat) : Nat :=
  if state < t.width then
    match t.rows[pos]? with
    | some row => row[state]?.getD 0
    | none => unseen
  else 0

/-- Whether a depth is smaller than what is recorded. -/
def improves (t : DepthTable) (pos state depth : Nat) : Bool :=
  recorded depth < t.entry pos state

/-- Rows for at least `count` positions; the new ones are blank. -/
def growRows (width count : Nat) (rows : Array (Array Nat)) : Array (Array Nat) :=
  if count ≤ rows.size then rows
  else rows ++ Array.replicate (count - rows.size) (Array.replicate width unseen)

/-- Record that a state was reached at a position. -/
def record : DepthTable → Nat → Nat → Nat → DepthTable
  | ⟨width, rows, used⟩, pos, state, depth =>
    { width
      rows := (growRows width (pos + 1) rows).modify pos
        (·.setIfInBounds state (recorded depth))
      used := max used (pos + 1) }

/-- Wipe the rows below `count`. -/
def wipeRows : Nat → Array (Array Nat) → Array (Array Nat)
  | 0, rows => rows
  | count + 1, rows => wipeRows count (rows.modify count (·.map fun _ => unseen))

/-- Wipe the rows that were touched. -/
def clear : DepthTable → DepthTable
  | ⟨width, rows, used⟩ => ⟨width, wipeRows used rows, 0⟩

/-! ## What a record changes -/

@[simp] theorem width_record (t : DepthTable) (pos state depth : Nat) :
    (t.record pos state depth).width = t.width := rfl

theorem lt_width_of_improves {t : DepthTable} {pos state depth : Nat}
    (h : t.improves pos state depth = true) : state < t.width := by
  refine Decidable.byContradiction fun hs => ?_
  simp [improves, entry, hs] at h

/-- New rows read as what is missing. -/
theorem entry_growRows (t : DepthTable) (count used pos state : Nat) :
    entry ⟨t.width, growRows t.width count t.rows, used⟩ pos state = t.entry pos state := by
  unfold entry growRows
  by_cases hs : state < t.width
  · by_cases hc : count ≤ t.rows.size
    · simp [hc]
    · simp only [hs, hc, if_true, if_false]
      by_cases hp : pos < t.rows.size
      · rw [Array.getElem?_append_left hp]
      · have hnone : t.rows[pos]? = none := Array.getElem?_eq_none (by omega)
        rw [Array.getElem?_append_right (by omega), hnone, Array.getElem?_replicate]
        by_cases hn : pos - t.rows.size < count - t.rows.size <;> simp [hn, hs]
  · simp [hs]

/-- A record that improves on an entry changes that entry only. -/
theorem entry_record {t : DepthTable} {pos state depth : Nat}
    (h : t.improves pos state depth = true) (pos' state' : Nat) :
    (t.record pos state depth).entry pos' state'
      = if pos' = pos ∧ state' = state then recorded depth else t.entry pos' state' := by
  have hs := lt_width_of_improves h
  rw [← entry_growRows t (pos + 1) t.used pos' state']
  have himp : recorded depth <
      entry ⟨t.width, growRows t.width (pos + 1) t.rows, t.used⟩ pos state := by
    rw [entry_growRows]; simpa [improves] using h
  generalize hg : growRows t.width (pos + 1) t.rows = rows at himp
  have hsize : pos < rows.size := by
    rw [← hg, growRows]
    split
    · omega
    · simp; omega
  have hrow : state < (rows[pos]).size := by
    simp only [entry, hs, if_true, Array.getElem?_eq_getElem hsize] at himp
    refine Decidable.byContradiction fun hn => ?_
    rw [Array.getElem?_eq_none (by omega)] at himp
    simp at himp
  have hrec : (t.record pos state depth).entry pos' state' =
      entry ⟨t.width, rows.modify pos (·.setIfInBounds state (recorded depth)),
        max t.used (pos + 1)⟩ pos' state' := by
    subst hg; rfl
  rw [hrec]
  unfold entry
  simp only [Array.getElem?_modify]
  by_cases hp : pos = pos'
  · subst hp
    simp only [if_true, Array.getElem?_eq_getElem hsize, Option.map_some,
      Array.getElem?_setIfInBounds, true_and]
    by_cases hq : state = state'
    · subst hq; simp [hs, hrow]
    · simp [hq, Ne.symm hq]
  · simp [hp, Ne.symm hp]

/-! ## Weight -/

/-- The sum of the values of `f` below `n`. -/
def sumBelow (f : Nat → Nat) : Nat → Nat
  | 0 => 0
  | n + 1 => sumBelow f n + f n

theorem sumBelow_le {f g : Nat → Nat} (h : ∀ x, f x ≤ g x) (n : Nat) :
    sumBelow f n ≤ sumBelow g n := by
  induction n with
  | zero => exact Nat.le_refl _
  | succ n ih => exact Nat.add_le_add ih (h n)

theorem sumBelow_lt {f g : Nat → Nat} (h : ∀ x, f x ≤ g x) {a n : Nat} (ha : a < n)
    (hlt : f a < g a) : sumBelow f n < sumBelow g n := by
  induction n with
  | zero => omega
  | succ n ih =>
    simp only [sumBelow]
    by_cases han : a = n
    · subst han
      exact Nat.add_lt_add_of_le_of_lt (sumBelow_le h a) hlt
    · exact Nat.add_lt_add_of_lt_of_le (ih (by omega)) (h n)

/-- The sum of the entries of the states at the positions up to and including `last`. -/
def weight (t : DepthTable) (last : Nat) : Nat :=
  sumBelow (fun pos => sumBelow (fun state => t.entry pos state) t.width) (last + 1)

/-- **A record that improves on an entry lowers the weight.** -/
theorem weight_record_lt {t : DepthTable} {pos state depth last : Nat}
    (h : t.improves pos state depth = true) (hpos : pos ≤ last) :
    (t.record pos state depth).weight last < t.weight last := by
  have hs := lt_width_of_improves h
  have himp : recorded depth < t.entry pos state := by simpa [improves] using h
  have hle : ∀ pos' state', (t.record pos state depth).entry pos' state' ≤ t.entry pos' state' := by
    intro pos' state'
    rw [entry_record h]
    split
    · next heq => obtain ⟨rfl, rfl⟩ := heq; omega
    · exact Nat.le_refl _
  refine sumBelow_lt (fun pos' => sumBelow_le (hle pos') _) (by omega : pos < last + 1) ?_
  refine sumBelow_lt (hle pos) hs ?_
  rw [entry_record h, if_pos ⟨rfl, rfl⟩]
  exact himp

end DepthTable

end ByteRegex
