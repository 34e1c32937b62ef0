import ByteRegex.Proofs.Search.Exploration

/-!
# Attempts one after another

An attempter keeps its depth table from one attempt to the next and clears it before each. What it
leaves behind is never seen: a table in which the rows beyond those touched are blank
(`DepthTable.Tidy`) reads as a new one once it is cleared, searching keeps it so, and a search looks
at nothing but the entries of its table (`explore_congr`).

So an attempter that has made any attempts before is as good as a new one
(`Attempter.Ready.longestMatch_fst`).
-/

namespace ByteRegex

variable {a : Automaton} {limit : Nat} {buffer : Buffer} {offset pos state : Nat}

/-! ## Tables between attempts -/

namespace DepthTable

/-- Rows have an entry for each state, and those beyond the touched ones are blank. -/
structure Tidy (t : DepthTable) : Prop where
  size_row : ∀ (pos : Nat) (row : Array Nat), t.rows[pos]? = some row → row.size = t.width
  blank : ∀ pos state, t.used ≤ pos → state < t.width → t.entry pos state = unseen

theorem tidy_empty (width : Nat) : (empty width).Tidy where
  size_row pos row h := by simp [empty] at h
  blank pos state _ h := by simp [entry, empty] at h ⊢; omega

theorem getElem?_wipeRows (count : Nat) (rows : Array (Array Nat)) :
    (wipeRows count rows)[pos]? =
      if pos < count then rows[pos]?.map (·.map fun _ => unseen) else rows[pos]? := by
  induction count generalizing rows with
  | zero => rfl
  | succ count ih =>
    rw [wipeRows, ih, Array.getElem?_modify]
    by_cases h : count = pos
    · subst h
      simp
    · rw [if_neg h]
      by_cases hlt : pos < count
      · rw [if_pos hlt, if_pos (by omega)]
      · rw [if_neg hlt, if_neg (by omega)]

@[simp] theorem width_clear (t : DepthTable) : t.clear.width = t.width := rfl

/-- A cleared table reads as one without rows. -/
theorem Tidy.entry_clear {t : DepthTable} (h : t.Tidy) (hs : state < t.width) :
    t.clear.entry pos state = unseen := by
  have hrow : t.clear.rows[pos]? =
      if pos < t.used then t.rows[pos]?.map (·.map fun _ => unseen) else t.rows[pos]? :=
    getElem?_wipeRows t.used t.rows
  by_cases hp : pos < t.used
  · rw [if_pos hp] at hrow
    rw [entry, width_clear, if_pos hs, hrow]
    cases hr : t.rows[pos]? with
    | none => rfl
    | some row =>
      have hsize := h.size_row pos row hr
      simp [hsize, hs]
  · rw [if_neg hp] at hrow
    have hblank := h.blank pos state (Nat.le_of_not_lt hp) hs
    rw [entry, if_pos hs] at hblank
    rw [entry, width_clear, if_pos hs, hrow, hblank]

theorem Tidy.clear {t : DepthTable} (h : t.Tidy) : t.clear.Tidy where
  size_row pos row hrow := by
    rw [show t.clear.rows[pos]? = _ from getElem?_wipeRows t.used t.rows] at hrow
    split at hrow
    · obtain ⟨old, hold, rfl⟩ := Option.map_eq_some_iff.mp hrow
      rw [Array.size_map]
      exact h.size_row pos old hold
    · exact h.size_row pos row hrow
  blank pos state _ hs := h.entry_clear hs

theorem size_row_growRows {width count : Nat} {rows : Array (Array Nat)} {row : Array Nat}
    (h : ∀ (pos : Nat) (row : Array Nat), rows[pos]? = some row → row.size = width)
    (hrow : (growRows width count rows)[pos]? = some row) : row.size = width := by
  unfold growRows at hrow
  split at hrow
  · exact h pos row hrow
  · rw [Array.getElem?_append] at hrow
    split at hrow
    · exact h pos row hrow
    · rw [Array.getElem?_replicate] at hrow
      split at hrow
      · obtain rfl := Option.some.inj hrow
        exact Array.size_replicate
      · cases hrow

theorem Tidy.record {t : DepthTable} {depth : Nat} (h : t.Tidy)
    (himp : t.improves pos state depth = true) : (t.record pos state depth).Tidy where
  size_row pos' row hrow := by
    rw [show (t.record pos state depth).rows[pos']? = _ from Array.getElem?_modify ..] at hrow
    split at hrow
    · obtain ⟨old, hold, rfl⟩ := Option.map_eq_some_iff.mp hrow
      rw [Array.size_setIfInBounds]
      exact size_row_growRows h.size_row hold
    · exact size_row_growRows h.size_row hrow
  blank pos' state' hused hs := by
    have hused : max t.used (pos + 1) ≤ pos' := hused
    rw [entry_record himp, if_neg (by omega)]
    exact h.blank pos' state' (by omega) hs

end DepthTable

/-! ## Searches -/

/-- A search keeps its table tidy. -/
theorem tidy_explore {table : DepthTable} {best : Option Nat} {abandoned : Array Nat}
    {frontier : List (Spot (buffer.size - offset))} (h : table.Tidy) :
    (explore a limit buffer offset table best abandoned frontier).2.Tidy ∧
      (explore a limit buffer offset table best abandoned frontier).2.width = table.width := by
  fun_induction explore a limit buffer offset table best abandoned frontier with
  | case1 => exact ⟨h, rfl⟩
  | case2 table best abandoned x rest himp table' best' hlimit ih => exact ih (h.record himp)
  | case3 table best abandoned x rest himp table' best' hlimit ih => exact ih (h.record himp)
  | case4 table best abandoned x rest himp ih => exact ih h

namespace DepthTable

variable {t t' : DepthTable} {depth : Nat}

theorem improves_congr (h : ∀ pos state, t.entry pos state = t'.entry pos state) :
    t.improves pos state depth = t'.improves pos state depth := by
  rw [improves, h, improves]

theorem entry_record_congr (h : ∀ pos state, t.entry pos state = t'.entry pos state)
    (himp : t.improves pos state depth = true) (pos' state' : Nat) :
    (t.record pos state depth).entry pos' state' =
      (t'.record pos state depth).entry pos' state' := by
  rw [entry_record himp, entry_record (improves_congr h ▸ himp), h]

end DepthTable

/-- **A search looks at nothing but the entries of its table.** -/
theorem explore_congr {table : DepthTable} (best : Option Nat) (abandoned : Array Nat)
    (frontier : List (Spot (buffer.size - offset))) :
    ∀ table' : DepthTable, (∀ pos state, table.entry pos state = table'.entry pos state) →
      (explore a limit buffer offset table best abandoned frontier).1 =
        (explore a limit buffer offset table' best abandoned frontier).1 := by
  fun_induction explore a limit buffer offset table best abandoned frontier with
  | case1 =>
    intro table' _
    rw [explore]
  | case2 table best abandoned x rest himp _ _ hlimit ih =>
    intro table' h
    rw [explore, dif_pos (DepthTable.improves_congr h ▸ himp), if_pos hlimit]
    exact ih _ (DepthTable.entry_record_congr h himp)
  | case3 table best abandoned x rest himp _ _ hlimit ih =>
    intro table' h
    rw [explore, dif_pos (DepthTable.improves_congr h ▸ himp), if_neg hlimit]
    exact ih _ (DepthTable.entry_record_congr h himp)
  | case4 table best abandoned x rest himp ih =>
    intro table' h
    rw [explore, dif_neg (DepthTable.improves_congr h ▸ himp)]
    exact ih _ h

/-! ## Attempters -/

namespace Attempter

/-- An attempter for an automaton that has made any attempts before. -/
structure Ready (a : Automaton) (limit : Nat) (t : Attempter) : Prop where
  automaton : t.automaton = a
  depthLimit : t.depthLimit = limit
  width : t.table.width = a.stateCount
  tidy : t.table.Tidy

theorem ready_new (a : Automaton) (limit : Nat) : Ready a limit (new a limit) :=
  ⟨rfl, rfl, rfl, DepthTable.tidy_empty _⟩

namespace Ready

variable {t : Attempter}

/-- Each attempt leaves the attempter ready for the next. -/
theorem longestMatch_snd (h : Ready a limit t) (buffer : Buffer) (offset : Nat) :
    Ready a limit (t.longestMatch buffer offset).2 := by
  obtain ⟨rfl, rfl, hwidth, htidy⟩ := h
  unfold longestMatch
  dsimp only
  split
  · exact ⟨rfl, rfl, hwidth, htidy⟩
  · obtain ⟨htidy', hwidth'⟩ := tidy_explore htidy.clear
    exact ⟨rfl, rfl, hwidth'.trans hwidth, htidy'⟩

/-- **Earlier attempts do not change what an attempt finds**, nor what it gives up. -/
theorem longestMatch_fst (h : Ready a limit t) (buffer : Buffer) (offset : Nat) :
    (t.longestMatch buffer offset).1 = a.longestMatch limit buffer offset := by
  obtain ⟨rfl, rfl, hwidth, htidy⟩ := h
  by_cases hlt : buffer.size < offset
  · rw [Automaton.longestMatch_of_lt hlt, longestMatch]
    dsimp only
    rw [if_pos hlt]
  · rw [Automaton.longestMatch_of_le (Nat.le_of_not_lt hlt), longestMatch]
    dsimp only
    rw [if_neg hlt]
    refine explore_congr _ _ _ _ fun pos state => ?_
    -- both tables are blank, and neither has an entry for what is no state
    by_cases hs : state < t.automaton.stateCount
    · rw [htidy.entry_clear (hwidth ▸ hs), Automaton.entry_empty hs]
    · simp [DepthTable.entry, DepthTable.empty, hwidth, hs]

end Ready

end Attempter

/-! ## Bounds -/

/-- A search begins with the starts, over no edges, whatever its table holds. -/
theorem Exploration.sound_startSpots {table : DepthTable} :
    Exploration.Sound a limit buffer offset
      ⟨table, ⟨none, #[]⟩, Attempter.startSpots a (buffer.size - offset)⟩ := by
  refine ⟨fun x hx => ?_, fun b hb => nomatch hb⟩
  obtain ⟨hs, hp, hd⟩ := Attempter.mem_startSpots.mp hx
  rw [hp, hd]
  exact ⟨Nat.zero_le limit, .start hs⟩

/-- What a search finds is a match, whether or not edges lead to states. -/
theorem Exploration.Run.sound {c c' : Exploration (buffer.size - offset)}
    (hrun : Exploration.Run a limit buffer offset c c')
    (h : Exploration.Sound a limit buffer offset c) :
    Exploration.Sound a limit buffer offset c' := by
  induction hrun with
  | refl => exact h
  | tail _ hstep ih => exact ih.step hstep

namespace Automaton

theorem Trail.le_size {n : Nat} (h : a.Trail buffer offset n state pos) :
    pos ≤ buffer.size - offset := by
  induction h with
  | start _ => exact Nat.zero_le _
  | step _ _ hmoves ih => exact hmoves.le_size ih

/-- A match ends within the buffer. -/
theorem longestMatch_le {length : Nat}
    (h : (a.longestMatch limit buffer offset).length = some length) :
    offset + length ≤ buffer.size := by
  by_cases hlt : buffer.size < offset
  · rw [longestMatch_of_lt hlt] at h
    cases h
  · have hle := Nat.le_of_not_lt hlt
    rw [longestMatch_of_le hle] at h
    have hrun : Exploration.Run a limit buffer offset _ _ :=
      explore_run (.empty a.stateCount) none #[] (Attempter.startSpots a (buffer.size - offset))
    obtain ⟨n, s, -, -, htrail⟩ := (hrun.sound Exploration.sound_startSpots).best length h
    have := htrail.le_size
    omega

end Automaton

end ByteRegex
