import ByteRegex.Proofs.Matrix
import ByteRegex.Proofs.Search.Loop

/-!
# What a search looks up is there

One iteration looks up the entry of a spot in the depth table, the row of its state in the matrix,
the classes that the labels of that row name, and the bytes on the two sides of its position.
`Spot.InBounds` says that all of these are there.

The invariant is `Exploration.Fits`: the spots of the frontier are at states, the rows of the table
have an entry for each state, and the rows that were touched are there and belong to positions of
the attempt. A step keeps it, because edges lead to states and rows are added before one is looked
at (`Exploration.Fits.step`).
-/

namespace ByteRegex

variable {a : Automaton} {limit : Nat} {buffer : Buffer} {offset last pos state depth : Nat}

/-- An automaton whose edges lead to states and name classes of its pool, in ascending order of
targets. -/
structure Automaton.Valid (a : Automaton) : Prop extends a.InRange where
  class_lt : ∀ {s e id}, e ∈ a.edges s → e.label = .classRef id → id < a.classes.size
  pairwise_edges : ∀ s, (a.edges s).Pairwise (·.target ≤ ·.target)

/-- What an iteration looks up for a spot is there. -/
structure Spot.InBounds (a : Automaton) (buffer : Buffer) (offset : Nat) (table : DepthTable)
    (x : Spot (buffer.size - offset)) : Prop where
  state_lt : x.state < a.stateCount
  /-- Once rows were added, there is one for the position, with an entry for the state. -/
  entry : ∃ row : Array Nat, (DepthTable.growRows table.width (x.pos + 1) table.rows)[x.pos]? =
    some row ∧ x.state < row.size
  /-- The row of the state lies within the cells of the matrix. -/
  row_le : a.matrix.place x.state 0 + a.matrix.width ≤ a.matrix.cells.size
  target_lt : ∀ e ∈ a.edges x.state, e.target < a.stateCount
  class_lt : ∀ e ∈ a.edges x.state, ∀ id, e.label = .classRef id → id < a.classes.size
  /-- The byte before the position is one of the buffer. -/
  behind_lt : 0 < offset + x.pos → offset + x.pos - 1 < buffer.size

/-! ## Tables -/

namespace DepthTable

variable {t : DepthTable} {width count : Nat} {rows : Array (Array Nat)}

theorem size_growRows : (growRows width count rows).size = max rows.size count := by
  unfold growRows
  split
  · omega
  · rw [Array.size_append, Array.size_replicate]
    omega

theorem size_rows_record :
    (t.record pos state depth).rows.size = max t.rows.size (pos + 1) := by
  rw [record, Array.size_modify, size_growRows]

theorem used_record : (t.record pos state depth).used = max t.used (pos + 1) := rfl

/-- Once rows were added, a position has a row with an entry for each state. -/
theorem Tidy.exists_row (h : t.Tidy) (hs : state < t.width) :
    ∃ row : Array Nat, (growRows t.width (pos + 1) t.rows)[pos]? = some row ∧ state < row.size := by
  have hpos : pos < (growRows t.width (pos + 1) t.rows).size := by
    rw [size_growRows]
    omega
  have hrow := Array.getElem?_eq_getElem hpos
  exact ⟨_, hrow, (size_row_growRows h.size_row hrow).symm ▸ hs⟩

end DepthTable

/-! ## Runs -/

namespace Exploration

/-- The table has the size of the automaton and of the attempt, and spots are at states. -/
structure Fits (a : Automaton) (c : Exploration last) : Prop where
  width : c.table.width = a.stateCount
  tidy : c.table.Tidy
  used_le_size : c.table.used ≤ c.table.rows.size
  used_le : c.table.used ≤ last + 1
  state_lt : ∀ x ∈ c.frontier, x.state < a.stateCount

theorem Fits.record {table : DepthTable} {found found' : Attempt}
    {frontier frontier' : List (Spot last)} {x : Spot last} (h : Fits a ⟨table, found, frontier⟩)
    (himp : table.improves x.pos x.state x.depth = true)
    (hstate : ∀ y ∈ frontier', y.state < a.stateCount) :
    Fits a ⟨table.record x.pos x.state x.depth, found', frontier'⟩ where
  width := h.width
  tidy := h.tidy.record himp
  used_le_size := by
    have := h.used_le_size
    dsimp only at *
    rw [DepthTable.size_rows_record, DepthTable.used_record]
    omega
  used_le := by
    have := h.used_le
    have := x.pos_le
    dsimp only at *
    rw [DepthTable.used_record]
    omega
  state_lt := hstate

variable {c c' : Exploration (buffer.size - offset)} {x : Spot (buffer.size - offset)}

/-- The spots that stay in the frontier are at states. -/
theorem Fits.state_lt_of_perm {table : DepthTable} {found : Attempt}
    {frontier rest : List (Spot last)} {x : Spot last} (h : Fits a ⟨table, found, frontier⟩)
    (hperm : frontier.Perm (x :: rest)) : ∀ y ∈ rest, y.state < a.stateCount :=
  fun y hy => h.state_lt y (hperm.mem_iff.mpr (List.mem_cons_of_mem x hy))

theorem Fits.step (ha : a.InRange) (h : Fits a c) (hstep : Step a limit buffer offset c c') :
    Fits a c' := by
  cases hstep with
  | @skip table found frontier rest x hperm _ =>
    exact { h with state_lt := h.state_lt_of_perm hperm }
  | @giveUp table found frontier rest x hperm himp _ =>
    exact h.record himp (h.state_lt_of_perm hperm)
  | @expand table found frontier rest frontier' x hperm himp _ hperm' =>
    refine h.record himp fun y hy => ?_
    rcases List.mem_append.mp (hperm'.mem_iff.mp hy) with hy | hy
    · obtain ⟨e, he, hs, -, -⟩ := Spot.mem_successors.mp hy
      rw [hs]
      exact ha.target_lt he
    · exact h.state_lt_of_perm hperm y hy

theorem Fits.run (ha : a.InRange) (h : Fits a c) (hrun : Run a limit buffer offset c c') :
    Fits a c' := by
  induction hrun with
  | refl => exact h
  | tail _ hstep ih => exact ih.step ha hstep

/-- **What an iteration looks up is there.** -/
theorem Fits.inBounds (ha : a.Valid) (hoffset : offset ≤ buffer.size) (h : Fits a c)
    (hx : x ∈ c.frontier) : x.InBounds a buffer offset c.table where
  state_lt := h.state_lt x hx
  entry := h.tidy.exists_row (h.width ▸ h.state_lt x hx)
  row_le := (Automaton.sound_matrix ha.toInRange).row_le
    ((Automaton.width_matrix ha.toInRange).symm ▸ h.state_lt x hx)
  target_lt _ he := ha.target_lt he
  class_lt _ he _ hid := ha.class_lt he hid
  behind_lt hpos := by
    have := x.pos_le
    omega

/-- Only positions of the attempt are recorded. -/
theorem Fits.le_last {c : Exploration last} (h : Fits a c) (hs : state < a.stateCount)
    (hentry : c.table.entry pos state ≠ DepthTable.unseen) : pos ≤ last := by
  have hlt : pos < c.table.used := Nat.lt_of_not_le fun hle =>
    hentry (h.tidy.blank pos state hle (h.width ▸ hs))
  exact Nat.le_of_lt_succ (Nat.lt_of_lt_of_le hlt h.used_le)

end Exploration

/-! ## Attempts -/

namespace Attempter.Ready

variable {t : Attempter}

theorem fits_initial (ha : a.InRange) (h : Ready a limit t) :
    (t.initial buffer offset).Fits a where
  width := h.width
  tidy := h.tidy.clear
  used_le_size := Nat.zero_le _
  used_le := Nat.zero_le _
  state_lt x hx := by
    rw [← h.automaton] at ha ⊢
    exact ha.start_lt (mem_startSpots.mp hx).1

theorem used_le_longestMatch (ha : a.InRange) (h : Ready a limit t)
    (hused : t.table.used ≤ t.table.rows.size) (buffer : Buffer) (offset : Nat) :
    (t.longestMatch buffer offset).2.table.used ≤
      (t.longestMatch buffer offset).2.table.rows.size := by
  by_cases hle : offset ≤ buffer.size
  · obtain ⟨n, c, hc, -, heq⟩ := h.exists_iterate hle
    rw [heq]
    exact ((h.fits_initial ha).run ha (Exploration.run_of_iterate hc)).used_le_size
  · rw [longestMatch_of_lt (Nat.lt_of_not_le hle)]
    exact hused

/-- Between attempts, the rows that are to be wiped are there. -/
theorem used_le_after (ha : a.InRange) (h : Ready a limit t)
    (hused : t.table.used ≤ t.table.rows.size) (tries : List Try) :
    (t.after tries).table.used ≤ (t.after tries).table.rows.size := by
  induction tries generalizing t with
  | nil => exact hused
  | cons x tries ih =>
    exact ih (h.longestMatch_snd x.buffer x.offset) (h.used_le_longestMatch ha hused _ _)

end Attempter.Ready

end ByteRegex
