import ByteRegex.Event
import ByteRegex.Proofs.Search.Attempts

/-!
# What the log of a search tells

A search passes over a spot for one of two reasons: it was there before, or it has come to the
limit. Only the second may lose matches, and only the second is logged. So a search that logs
nothing has explored whatever can be reached, over any number of edges: when its frontier is empty,
the starts are recorded, and so is whatever an edge leads to from a recorded state
(`Exploration.Exhaustive`). At which depths they are recorded does not matter, so this holds of any
limit, also of one that 32 bits cannot hold.

A search that logs nothing never met its limit, and one with a larger limit takes the same steps
(`explore_of_limit_le`).
-/

namespace ByteRegex

variable {a : Automaton} {limit limit' : Nat} {buffer : Buffer} {offset n p s : Nat}

/-- A final is reached at the position `p`, over any number of edges. -/
def Automaton.Matches (a : Automaton) (buffer : Buffer) (offset p : Nat) : Prop :=
  ∃ n s, a.isFinal s = true ∧ a.Trail buffer offset n s p

namespace Attempt

variable {t : Attempt}

/-- The lines that an attempt logs. -/
def log (t : Attempt) : Array String :=
  (Traced.reportAbandoned t.abandoned : Traced Empty Unit).result.2.map Event.line

/-- There is one line for each branch that was given up. -/
theorem log_eq : t.log = t.abandoned.map fun d => (Event.abandoned d).line := by
  show (#[] ++ t.abandoned.map Event.abandoned).map Event.line = _
  rw [Array.empty_append, Array.map_map]
  rfl

theorem log_eq_empty_iff : t.log = #[] ↔ t.abandoned = #[] := by
  rw [log_eq, Array.map_eq_empty_iff]

end Attempt

/-! ## What is given up -/

namespace Exploration

variable {c c' : Exploration (buffer.size - offset)}

/-- A branch is given up at the limit, and not beyond. -/
theorem Step.abandoned_eq (hstep : Step a limit buffer offset c c')
    (hsound : Sound a limit buffer offset c) (h : ∀ d ∈ c.found.abandoned, d = limit) :
    ∀ d ∈ c'.found.abandoned, d = limit := by
  cases hstep with
  | skip => exact h
  | expand => exact h
  | @giveUp table found frontier rest x hperm _ hge =>
    intro d hd
    rcases Array.mem_push.mp hd with hd | rfl
    · exact h d hd
    · exact Nat.le_antisymm (hsound.frontier x (hperm.mem_iff.mpr List.mem_cons_self)).1 hge

/-- **Every branch that a search gives up is at the limit.** -/
theorem Run.abandoned_eq (hrun : Run a limit buffer offset c c')
    (hsound : Sound a limit buffer offset c) (h : ∀ d ∈ c.found.abandoned, d = limit) :
    ∀ d ∈ c'.found.abandoned, d = limit := by
  have key : Sound a limit buffer offset c' ∧ ∀ d ∈ c'.found.abandoned, d = limit := by
    induction hrun with
    | refl => exact ⟨hsound, h⟩
    | tail _ hstep ih => exact ⟨ih.1.step hstep, hstep.abandoned_eq ih.1 ih.2⟩
  exact key.2

/-- What was given up stays given up. -/
theorem Step.abandoned_eq_empty (hstep : Step a limit buffer offset c c')
    (h : c'.found.abandoned = #[]) : c.found.abandoned = #[] := by
  cases hstep with
  | skip => exact h
  | expand => exact h
  | giveUp => exact absurd h Array.push_ne_empty

/-! ## What is explored -/

/-- A state was reached at a position, or is about to be. -/
def Seen {last : Nat} (c : Exploration last) (s p : Nat) : Prop :=
  c.table.entry p s < DepthTable.unseen ∨ ∃ x ∈ c.frontier, x.state = s ∧ x.pos = p

/-- Starts are seen, and so is whatever a recorded state leads to; the best match is no shorter than
any recorded one. -/
structure Exhaustive (a : Automaton) (buffer : Buffer) (offset : Nat)
    (c : Exploration (buffer.size - offset)) : Prop where
  starts : ∀ s, a.isStart s = true → c.Seen s 0
  edges : ∀ s p q, ∀ e ∈ a.edges s, c.table.entry p s < DepthTable.unseen →
    e.label.Moves a.classes buffer (offset + p) (offset + q) → c.Seen e.target q
  finals : ∀ s p, s < a.stateCount → a.isFinal s = true →
    c.table.entry p s < DepthTable.unseen → ∃ b ∈ c.found.length, p ≤ b

theorem recorded_lt (depth : Nat) : DepthTable.recorded depth < DepthTable.unseen :=
  Nat.lt_of_le_of_lt (Nat.min_le_right depth _) (by decide)

theorem entry_record_lt {table : DepthTable} {x : Spot (buffer.size - offset)}
    (h : table.improves x.pos x.state x.depth = true) :
    (table.record x.pos x.state x.depth).entry x.pos x.state < DepthTable.unseen := by
  rw [DepthTable.entry_record h, if_pos ⟨rfl, rfl⟩]
  exact recorded_lt x.depth

/-- A spot that is explored is recorded, so what was seen stays seen. -/
theorem Seen.record {table : DepthTable} {found found' : Attempt}
    {frontier frontier' : List (Spot (buffer.size - offset))} {x : Spot (buffer.size - offset)}
    (himp : table.improves x.pos x.state x.depth = true)
    (hmem : ∀ y ∈ frontier, y = x ∨ y ∈ frontier') (h : Seen ⟨table, found, frontier⟩ s p) :
    Seen ⟨table.record x.pos x.state x.depth, found', frontier'⟩ s p := by
  rcases h with h | ⟨y, hy, rfl, rfl⟩
  · exact .inl (Nat.lt_of_le_of_lt (entry_record_le himp) h)
  · rcases hmem y hy with rfl | hy
    · exact .inl (entry_record_lt himp)
    · exact .inr ⟨y, hy, rfl, rfl⟩

/-- Passing over a spot loses nothing, because its state was recorded at its position before. -/
theorem Exhaustive.skip {table : DepthTable} {found : Attempt}
    {frontier rest : List (Spot (buffer.size - offset))} {x : Spot (buffer.size - offset)}
    (h : Exhaustive a buffer offset ⟨table, found, frontier⟩)
    (hmem : ∀ y ∈ frontier, y = x ∨ y ∈ rest)
    (himp : table.improves x.pos x.state x.depth = false) :
    Exhaustive a buffer offset ⟨table, found, rest⟩ := by
  have hentry : table.entry x.pos x.state < DepthTable.unseen :=
    Nat.lt_of_le_of_lt (Nat.le_of_not_lt (of_decide_eq_false himp)) (recorded_lt x.depth)
  have hseen : ∀ {s p}, Seen ⟨table, found, frontier⟩ s p → Seen ⟨table, found, rest⟩ s p := by
    rintro s p (h | ⟨y, hy, rfl, rfl⟩)
    · exact .inl h
    · rcases hmem y hy with rfl | hy
      · exact .inl hentry
      · exact .inr ⟨y, hy, rfl, rfl⟩
  exact ⟨fun s hs => hseen (h.starts s hs),
    fun s p q e he hlt hmoves => hseen (h.edges s p q e he hlt hmoves), h.finals⟩

/-- Exploring a spot loses nothing, because whatever it leads to is put on the frontier. -/
theorem Exhaustive.expand {table : DepthTable} {found : Attempt} {abandoned : Array Nat}
    {frontier frontier' : List (Spot (buffer.size - offset))} {x : Spot (buffer.size - offset)}
    (h : Exhaustive a buffer offset ⟨table, found, frontier⟩)
    (hmem : ∀ y ∈ frontier, y = x ∨ y ∈ frontier')
    (hsuccessor : ∀ y ∈ x.successors a.classes buffer offset (a.edges x.state), y ∈ frontier')
    (himp : table.improves x.pos x.state x.depth = true) :
    Exhaustive a buffer offset ⟨table.record x.pos x.state x.depth,
      ⟨x.update a found.length, abandoned⟩, frontier'⟩ where
  starts s hs := (h.starts s hs).record himp hmem
  edges s p q e he hlt hmoves := by
    -- no entry but that of the spot itself has changed
    by_cases hx : p = x.pos ∧ s = x.state
    · obtain ⟨rfl, rfl⟩ := hx
      have hle := hmoves.le_size x.pos_le
      exact .inr ⟨⟨e.target, q, x.depth + 1, hle⟩,
        hsuccessor _ (Spot.mem_successors.mpr ⟨e, he, rfl, rfl, hmoves⟩), rfl, rfl⟩
    · dsimp only at hlt
      rw [DepthTable.entry_record himp, if_neg hx] at hlt
      exact (h.edges s p q e he hlt hmoves).record himp hmem
  finals s p hs hfinal hlt := by
    by_cases hx : p = x.pos ∧ s = x.state
    · obtain ⟨rfl, rfl⟩ := hx
      exact Spot.le_update_of_isFinal hfinal
    · dsimp only at hlt ⊢
      rw [DepthTable.entry_record himp, if_neg hx] at hlt
      obtain ⟨b, hb, hpb⟩ := h.finals s p hs hfinal hlt
      obtain ⟨b', hb', hbb'⟩ := Spot.le_update_of_mem hb
      exact ⟨b', hb', Nat.le_trans hpb hbb'⟩

/-- **A step that gives nothing up loses nothing.** -/
theorem Exhaustive.step (h : Exhaustive a buffer offset c)
    (hstep : Step a limit buffer offset c c') (hnone : c'.found.abandoned = #[]) :
    Exhaustive a buffer offset c' := by
  cases hstep with
  | @skip table found frontier rest x hperm himp =>
    exact h.skip (fun y hy => List.mem_cons.mp (hperm.mem_iff.mp hy)) himp
  | giveUp => exact absurd hnone Array.push_ne_empty
  | @expand table found frontier rest frontier' x hperm himp _ hperm' =>
    refine h.expand (fun y hy => ?_) (fun y hy => ?_) himp
    · refine (List.mem_cons.mp (hperm.mem_iff.mp hy)).imp_right fun hy => ?_
      exact hperm'.mem_iff.mpr (List.mem_append_right _ hy)
    · exact hperm'.mem_iff.mpr (List.mem_append_left _ hy)

/-- A run that gives nothing up loses nothing. -/
theorem Run.exhaustive (hrun : Run a limit buffer offset c c') (hnone : c'.found.abandoned = #[])
    (h : Exhaustive a buffer offset c) : Exhaustive a buffer offset c' := by
  induction hrun with
  | refl => exact h
  | tail _ hstep ih => exact (ih (hstep.abandoned_eq_empty hnone)).step hstep hnone

/-- When nothing is left to be explored, every trail is recorded at its end. -/
theorem Exhaustive.entry_lt_of_trail (h : Exhaustive a buffer offset c) (hc : c.frontier = [])
    (htrail : a.Trail buffer offset n s p) : c.table.entry p s < DepthTable.unseen := by
  have hentry : ∀ {s p}, c.Seen s p → c.table.entry p s < DepthTable.unseen := by
    rintro s p (h | ⟨x, hx, -⟩)
    · exact h
    · rw [hc] at hx
      cases hx
  induction htrail with
  | start hs => exact hentry (h.starts _ hs)
  | step _ he hmoves ih => exact hentry (h.edges _ _ _ _ he ih hmoves)

/-- Before anything was explored, nothing is recorded, and the starts are on the frontier. -/
theorem exhaustive_start {table : DepthTable}
    (hblank : ∀ s p, s < a.stateCount → table.entry p s = DepthTable.unseen) :
    Exhaustive a buffer offset ⟨table, ⟨none, #[]⟩, Attempter.startSpots a _⟩ where
  starts s hs :=
    .inr ⟨⟨s, 0, 0, Nat.zero_le _⟩, Attempter.mem_startSpots.mpr ⟨hs, rfl, rfl⟩, rfl, rfl⟩
  edges s p q e he hlt _ := by
    dsimp only at hlt
    rw [hblank s p (Automaton.lt_stateCount_of_mem_edges he)] at hlt
    exact absurd hlt (Nat.lt_irrefl _)
  finals s p hs _ hlt := by
    dsimp only at hlt
    rw [hblank s p hs] at hlt
    exact absurd hlt (Nat.lt_irrefl _)

end Exploration

/-! ## Larger limits -/

theorem size_abandoned_le_explore (a : Automaton) (limit : Nat) (table : DepthTable)
    (best : Option Nat) (abandoned : Array Nat) (frontier : List (Spot (buffer.size - offset))) :
    abandoned.size ≤
      (explore a limit buffer offset table best abandoned frontier).1.abandoned.size := by
  fun_induction explore a limit buffer offset table best abandoned frontier with
  | case1 => exact Nat.le_refl _
  | case2 table best abandoned x rest himp _ _ hlimit ih =>
    rw [Array.size_push] at ih
    exact Nat.le_of_succ_le ih
  | case3 table best abandoned x rest himp _ _ hlimit ih => exact ih
  | case4 table best abandoned x rest himp ih => exact ih

/-- **A search that gives nothing up takes the same steps with a larger limit.** -/
theorem explore_of_limit_le (hle : limit ≤ limit') (table : DepthTable) (best : Option Nat)
    (abandoned : Array Nat) (frontier : List (Spot (buffer.size - offset)))
    (h : (explore a limit buffer offset table best abandoned frontier).1.abandoned = abandoned) :
    explore a limit' buffer offset table best abandoned frontier =
      explore a limit buffer offset table best abandoned frontier := by
  fun_induction explore a limit buffer offset table best abandoned frontier with
  | case1 => rw [explore]
  | case2 table best abandoned x rest himp table' best' hlimit ih =>
    -- what is given up here is never taken back
    have hsize := size_abandoned_le_explore a limit table' best' (abandoned.push x.depth) rest
    rw [h, Array.size_push] at hsize
    exact absurd hsize (Nat.not_succ_le_self _)
  | case3 table best abandoned x rest himp _ _ hlimit ih =>
    rw [explore, dif_pos himp, if_neg (by omega)]
    exact ih h
  | case4 table best abandoned x rest himp ih =>
    rw [explore, dif_neg himp]
    exact ih h

namespace Automaton

/-- Every branch that is given up is at the limit. -/
theorem abandoned_longestMatch (a : Automaton) (limit : Nat) (buffer : Buffer) (offset : Nat) :
    ∀ d ∈ (a.longestMatch limit buffer offset).abandoned, d = limit := by
  by_cases hlt : buffer.size < offset
  · rw [longestMatch_of_lt hlt]
    exact fun d hd => absurd hd (Array.not_mem_empty d)
  · rw [longestMatch_of_le (Nat.le_of_not_lt hlt)]
    have hrun : Exploration.Run a limit buffer offset _ _ :=
      explore_run (.empty a.stateCount) none #[] (Attempter.startSpots a (buffer.size - offset))
    exact hrun.abandoned_eq Exploration.sound_startSpots
      fun d hd => absurd hd (Array.not_mem_empty d)

/-- Where nothing is given up, the longest match within the limit is the longest at all. -/
theorem isLongest_of_abandoned_eq_empty (ha : a.InRange) (hle : offset ≤ buffer.size)
    (hnone : (a.longestMatch limit buffer offset).abandoned = #[]) :
    IsLongest (a.Matches buffer offset) (a.longestMatch limit buffer offset).length := by
  rw [longestMatch_of_le hle] at hnone ⊢
  have hrun : Exploration.Run a limit buffer offset _ _ :=
    explore_run (.empty a.stateCount) none #[] (Attempter.startSpots a (buffer.size - offset))
  have hsound := hrun.sound Exploration.sound_startSpots
  have hexhaustive := hrun.exhaustive hnone
    (Exploration.exhaustive_start fun s p hs => entry_empty hs)
  -- the end of every match is recorded, and its state is final
  have hbest : ∀ p, a.Matches buffer offset p → ∃ b ∈ (explore a limit buffer offset
      (.empty a.stateCount) none #[] (Attempter.startSpots a _)).1.length, p ≤ b := by
    rintro p ⟨n, s, hs, htrail⟩
    have hentry := hexhaustive.entry_lt_of_trail rfl htrail
    exact hexhaustive.finals s p (htrail.lt_stateCount ha) hs hentry
  cases hlength : (explore a limit buffer offset (.empty a.stateCount) none #[]
      (Attempter.startSpots a (buffer.size - offset))).1.length with
  | none =>
    intro p hp
    obtain ⟨b, hb, -⟩ := hbest p hp
    rw [hlength] at hb
    cases hb
  | some b =>
    obtain ⟨n, s, -, hs, htrail⟩ := hsound.best b hlength
    refine ⟨⟨n, s, hs, htrail⟩, fun p hp => ?_⟩
    obtain ⟨b', hb', hle⟩ := hbest p hp
    rw [hlength] at hb'
    cases hb'
    exact hle

/-- Where nothing is given up, a larger limit changes nothing. -/
theorem longestMatch_of_limit_le (hle : limit ≤ limit')
    (hnone : (a.longestMatch limit buffer offset).abandoned = #[]) :
    a.longestMatch limit' buffer offset = a.longestMatch limit buffer offset := by
  by_cases hlt : buffer.size < offset
  · rw [longestMatch_of_lt hlt, longestMatch_of_lt hlt]
  · have hoffset := Nat.le_of_not_lt hlt
    rw [longestMatch_of_le hoffset] at hnone
    rw [longestMatch_of_le hoffset, longestMatch_of_le hoffset,
      explore_of_limit_le hle _ _ _ _ hnone]

end Automaton

/-- **The log of an attempt certifies its answer.** Every line reports the limit. An attempt that
logs nothing found the longest match at all, over paths of any length, and nothing beyond the end of
the buffer; with any larger limit it finds the same and logs nothing either. What the attempters did
before does not matter. -/
theorem Attempter.log_certifies (a : Automaton) (limit : Nat) (tries : List Try) (buffer : Buffer)
    (offset : Nat) :
    let attempt := (((new a limit).after tries).longestMatch buffer offset).1
    (∀ line ∈ attempt.log, line = "TRACE abandoned search branch at depth " ++ toString limit) ∧
    (attempt.log = #[] →
      (buffer.size < offset → attempt.length = none) ∧
      (a.InRange → offset ≤ buffer.size → IsLongest (a.Matches buffer offset) attempt.length) ∧
      ∀ limit', limit ≤ limit' → ∀ tries',
        (((new a limit').after tries').longestMatch buffer offset).1 = attempt) := by
  dsimp only
  rw [((ready_new a limit).after tries).longestMatch_fst]
  refine ⟨fun line hline => ?_, fun hlog => ⟨fun hlt => ?_, fun ha hle => ?_, ?_⟩⟩
  · rw [Attempt.log_eq] at hline
    obtain ⟨d, hd, rfl⟩ := Array.mem_map.mp hline
    rw [a.abandoned_longestMatch limit buffer offset d hd]
    rfl
  · rw [Automaton.longestMatch_of_lt hlt]
  · exact Automaton.isLongest_of_abandoned_eq_empty ha hle (Attempt.log_eq_empty_iff.mp hlog)
  · intro limit' hle tries'
    rw [((ready_new a limit').after tries').longestMatch_fst]
    exact Automaton.longestMatch_of_limit_le hle (Attempt.log_eq_empty_iff.mp hlog)

/-- No path has more than three edges, so a limit of four leaves nothing to report. A limit of one
gives up the branches of both starts. -/
theorem Attempter.log_certifies_shallow :
    ∃ a : Automaton, a.rows = #[[⟨1, .byte 0x61⟩], [⟨2, .byte 0x62⟩], [], [⟨0, .anchor .start⟩]] ∧
      ((new a 1).longestMatch #[0x61, 0x62] 0).1.abandoned = #[1, 1] ∧
      IsLongest (a.Matches #[0x61, 0x62] 0) (some 2) ∧
      ∀ limit, 4 ≤ limit → ((new a limit).longestMatch #[0x61, 0x62] 0).1 = ⟨some 2, #[]⟩ := by
  let a : Automaton := ⟨#[[⟨1, .byte 0x61⟩], [⟨2, .byte 0x62⟩], [], [⟨0, .anchor .start⟩]],
    ⟨#[9]⟩, ⟨#[4]⟩, #[]⟩
  have htargets : ∀ s < 4, ∀ e ∈ a.edges s, e.target < 4 := by decide
  have hstarts : ∀ s < 64, a.isStart s = true → s < 4 := by decide
  have ha : a.InRange :=
    ⟨fun he => htargets _ (Automaton.lt_stateCount_of_mem_edges he) _ he,
      fun hs => hstarts _ (StateSet.lt_capacity_of_contains hs) hs⟩
  have hfound : (((new a 4).after []).longestMatch #[0x61, 0x62] 0).1 = ⟨some 2, #[]⟩ := by cbv
  have hcertified := log_certifies a 4 [] #[0x61, 0x62] 0
  simp only [hfound] at hcertified
  obtain ⟨-, hlongest, hlimit⟩ := hcertified.2 (Attempt.log_eq_empty_iff.mpr rfl)
  exact ⟨a, rfl, by cbv, hlongest ha (by decide), fun limit hle => hlimit limit hle []⟩

end ByteRegex
