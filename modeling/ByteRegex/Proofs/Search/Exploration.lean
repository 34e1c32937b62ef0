import ByteRegex.Proofs.Search.Trail
import Mathlib.Logic.Relation

/-!
# Searches in any order

`Exploration.Step` takes any spot from the frontier, and pushes what it leads to in any order;
`explore` is one run of such steps (`explore_run`), the one that takes the newest spot first.

Two invariants hold along every run.

* `Exploration.Sound`: the spots of the frontier are ends of trails, and the best match is a match.
* `Exploration.Complete`: the end of every trail that the limit allows is recorded at no greater
  depth, or the trail passes through a spot of the frontier at no greater depth. A spot that was
  reached over a longer way first is not lost, because a smaller depth puts it on the frontier
  again.

Once the frontier is empty, the best match is therefore the longest one (`isLongest_of_run`).
-/

namespace ByteRegex

/-- The state of a search. -/
structure Exploration (last : Nat) where
  table : DepthTable
  found : Attempt
  frontier : List (Spot last)

/-- The best match after a spot was explored. -/
def Spot.update {last : Nat} (a : Automaton) (x : Spot last) (best : Option Nat) : Option Nat :=
  if a.isFinal x.state then longerMatch best x.pos else best

namespace Exploration

/-- One step: take any spot of the frontier, and pass over it, give it up or explore it. -/
inductive Step (a : Automaton) (limit : Nat) (buffer : Buffer) (offset : Nat) :
    Exploration (buffer.size - offset) → Exploration (buffer.size - offset) → Prop where
  | skip {table : DepthTable} {found : Attempt} {frontier rest : List (Spot (buffer.size - offset))}
    {x : Spot (buffer.size - offset)} :
    frontier.Perm (x :: rest) → table.improves x.pos x.state x.depth = false →
    Step a limit buffer offset ⟨table, found, frontier⟩ ⟨table, found, rest⟩
  | giveUp {table : DepthTable} {found : Attempt}
    {frontier rest : List (Spot (buffer.size - offset))} {x : Spot (buffer.size - offset)} :
    frontier.Perm (x :: rest) → table.improves x.pos x.state x.depth = true → limit ≤ x.depth →
    Step a limit buffer offset ⟨table, found, frontier⟩
      ⟨table.record x.pos x.state x.depth,
        ⟨x.update a found.length, found.abandoned.push x.depth⟩, rest⟩
  | expand {table : DepthTable} {found : Attempt}
    {frontier rest frontier' : List (Spot (buffer.size - offset))}
    {x : Spot (buffer.size - offset)} :
    frontier.Perm (x :: rest) → table.improves x.pos x.state x.depth = true → x.depth < limit →
    frontier'.Perm (x.successors a.classes buffer offset (a.edges x.state) ++ rest) →
    Step a limit buffer offset ⟨table, found, frontier⟩
      ⟨table.record x.pos x.state x.depth, ⟨x.update a found.length, found.abandoned⟩, frontier'⟩

/-- Any number of steps. -/
def Run (a : Automaton) (limit : Nat) (buffer : Buffer) (offset : Nat) :
    Exploration (buffer.size - offset) → Exploration (buffer.size - offset) → Prop :=
  Relation.ReflTransGen (Step a limit buffer offset)

end Exploration

open Exploration

variable {a : Automaton} {limit : Nat} {buffer : Buffer} {offset n p q s : Nat}

/-- **A search is a run of steps that empties the frontier.** -/
theorem explore_run (table : DepthTable) (best : Option Nat) (abandoned : Array Nat)
    (frontier : List (Spot (buffer.size - offset))) :
    Run a limit buffer offset ⟨table, ⟨best, abandoned⟩, frontier⟩
      ⟨(explore a limit buffer offset table best abandoned frontier).2,
        (explore a limit buffer offset table best abandoned frontier).1, []⟩ := by
  fun_induction explore a limit buffer offset table best abandoned frontier with
  | case1 => exact .refl
  | case2 table best abandoned x rest himp table' best' hlimit ih =>
    exact .head (.giveUp (.refl _) himp hlimit) ih
  | case3 table best abandoned x rest himp table' best' hlimit ih =>
    refine .head (.expand (.refl _) himp (Nat.lt_of_not_le hlimit) ?_) ih
    rw [Spot.pushAll_eq]
    exact (List.reverse_perm _).append_right rest
  | case4 table best abandoned x rest himp ih =>
    exact .head (.skip (.refl _) (Bool.eq_false_of_not_eq_true himp)) ih

/-! ## The best match -/

section Update

variable {last b : Nat} {x : Spot last} {best : Option Nat}

theorem Spot.mem_update (h : b ∈ x.update a best) :
    b ∈ best ∨ a.isFinal x.state = true ∧ b = x.pos := by
  unfold Spot.update longerMatch at h
  split at h
  · next hx =>
    split at h
    · exact .inr ⟨hx, (Option.some.inj h).symm⟩
    · split at h
      · exact .inr ⟨hx, (Option.some.inj h).symm⟩
      · exact .inl h
  · exact .inl h

theorem Spot.le_update_of_mem (h : b ∈ best) : ∃ c ∈ x.update a best, b ≤ c := by
  obtain rfl := Option.mem_def.mp h
  unfold Spot.update longerMatch
  split
  · dsimp only
    split
    · next hlt => exact ⟨_, rfl, Nat.le_of_lt hlt⟩
    · exact ⟨_, rfl, Nat.le_refl _⟩
  · exact ⟨_, rfl, Nat.le_refl _⟩

theorem Spot.le_update_of_isFinal (h : a.isFinal x.state = true) :
    ∃ c ∈ x.update a best, x.pos ≤ c := by
  unfold Spot.update longerMatch
  rw [if_pos h]
  cases best with
  | none => exact ⟨_, rfl, Nat.le_refl _⟩
  | some b =>
    dsimp only
    split
    · exact ⟨_, rfl, Nat.le_refl _⟩
    · next hlt => exact ⟨_, rfl, Nat.le_of_not_lt hlt⟩

end Update

namespace Exploration

variable {c c' : Exploration (buffer.size - offset)}

/-! ## What is found is there -/

/-- The spots of the frontier are ends of trails within the limit, and the best match is one. -/
structure Sound (a : Automaton) (limit : Nat) (buffer : Buffer) (offset : Nat)
    (c : Exploration (buffer.size - offset)) : Prop where
  frontier : ∀ x ∈ c.frontier, x.depth ≤ limit ∧ a.Trail buffer offset x.depth x.state x.pos
  best : ∀ b ∈ c.found.length, a.MatchesWithin limit buffer offset b

theorem Sound.update {x : Spot (buffer.size - offset)} (h : Sound a limit buffer offset c)
    (hx : x ∈ c.frontier) :
    ∀ b ∈ x.update a c.found.length, a.MatchesWithin limit buffer offset b := by
  intro b hb
  rcases Spot.mem_update hb with hb | ⟨hfinal, rfl⟩
  · exact h.best b hb
  · obtain ⟨hdepth, htrail⟩ := h.frontier x hx
    exact ⟨x.depth, x.state, hdepth, hfinal, htrail⟩

theorem Sound.successor {x y : Spot (buffer.size - offset)} (h : Sound a limit buffer offset c)
    (hx : x ∈ c.frontier) (hlt : x.depth < limit)
    (hy : y ∈ x.successors a.classes buffer offset (a.edges x.state)) :
    y.depth ≤ limit ∧ a.Trail buffer offset y.depth y.state y.pos := by
  obtain ⟨e, he, hs, hd, hmoves⟩ := Spot.mem_successors.mp hy
  rw [hs, hd]
  exact ⟨hlt, (h.frontier x hx).2.step he hmoves⟩

theorem Sound.step (h : Sound a limit buffer offset c) (hstep : Step a limit buffer offset c c') :
    Sound a limit buffer offset c' := by
  cases hstep with
  | @skip table found frontier rest x hperm _ =>
    refine ⟨?_, h.best⟩
    intro y hy
    exact h.frontier y (hperm.mem_iff.mpr (List.mem_cons_of_mem x hy))
  | @giveUp table found frontier rest x hperm _ _ =>
    refine ⟨?_, h.update (hperm.mem_iff.mpr List.mem_cons_self)⟩
    intro y hy
    exact h.frontier y (hperm.mem_iff.mpr (List.mem_cons_of_mem x hy))
  | @expand table found frontier rest frontier' x hperm _ hlt hperm' =>
    have hx : x ∈ frontier := hperm.mem_iff.mpr List.mem_cons_self
    refine ⟨?_, h.update hx⟩
    intro y hy
    rcases List.mem_append.mp (hperm'.mem_iff.mp hy) with hy | hy
    · exact h.successor hx hlt hy
    · exact h.frontier y (hperm.mem_iff.mpr (List.mem_cons_of_mem x hy))

/-! ## What is there is found -/

/-- A state was reached at a position over at most `n` edges, or is about to be. -/
def Covered {last : Nat} (c : Exploration last) (n s p : Nat) : Prop :=
  c.table.entry p s ≤ n ∨ ∃ x ∈ c.frontier, x.state = s ∧ x.pos = p ∧ x.depth ≤ n

/-- Starts are covered, and so is whatever a recorded state below the limit leads to; the best match
is no shorter than any recorded one. -/
structure Complete (a : Automaton) (limit : Nat) (buffer : Buffer) (offset : Nat)
    (c : Exploration (buffer.size - offset)) : Prop where
  starts : ∀ s, a.isStart s = true → c.Covered 0 s 0
  edges : ∀ s p q, ∀ e ∈ a.edges s, c.table.entry p s < limit →
    e.label.Moves a.classes buffer (offset + p) (offset + q) →
    c.Covered (c.table.entry p s + 1) e.target q
  finals : ∀ s p, s < a.stateCount → a.isFinal s = true → c.table.entry p s ≤ limit →
    ∃ b ∈ c.found.length, p ≤ b

theorem Covered.mono {last m : Nat} {c : Exploration last} (h : c.Covered n s p) (hnm : n ≤ m) :
    c.Covered m s p := by
  rcases h with h | ⟨x, hx, hs, hp, hd⟩
  · exact .inl (Nat.le_trans h hnm)
  · exact .inr ⟨x, hx, hs, hp, Nat.le_trans hd hnm⟩

theorem recorded_eq {depth : Nat} (hlimit : limit < DepthTable.unseen) (h : depth ≤ limit) :
    DepthTable.recorded depth = depth :=
  Nat.min_eq_left (by omega)

/-- A spot that is passed over is recorded at no greater depth. -/
theorem entry_le_of_not_improves {table : DepthTable} {depth : Nat}
    (hlimit : limit < DepthTable.unseen) (hdepth : depth ≤ limit)
    (h : table.improves p s depth = false) : table.entry p s ≤ depth := by
  unfold DepthTable.improves at h
  rw [recorded_eq hlimit hdepth] at h
  exact Nat.le_of_not_lt (of_decide_eq_false h)

theorem entry_record_le {table : DepthTable} {x : Spot (buffer.size - offset)}
    (h : table.improves x.pos x.state x.depth = true) :
    (table.record x.pos x.state x.depth).entry p s ≤ table.entry p s := by
  rw [DepthTable.entry_record h]
  split
  · next heq =>
    obtain ⟨rfl, rfl⟩ := heq
    exact Nat.le_of_lt (of_decide_eq_true h)
  · exact Nat.le_refl _

theorem entry_record_self {table : DepthTable} {x : Spot (buffer.size - offset)}
    (hlimit : limit < DepthTable.unseen) (hdepth : x.depth ≤ limit)
    (h : table.improves x.pos x.state x.depth = true) :
    (table.record x.pos x.state x.depth).entry x.pos x.state = x.depth := by
  rw [DepthTable.entry_record h, if_pos ⟨rfl, rfl⟩, recorded_eq hlimit hdepth]

/-- Exploring a spot, or giving it up, records it, so what it covered stays covered. -/
theorem Covered.record {table : DepthTable} {found found' : Attempt}
    {frontier frontier' : List (Spot (buffer.size - offset))} {x : Spot (buffer.size - offset)}
    (hlimit : limit < DepthTable.unseen) (hdepth : x.depth ≤ limit)
    (himp : table.improves x.pos x.state x.depth = true)
    (hmem : ∀ y ∈ frontier, y = x ∨ y ∈ frontier') (h : Covered ⟨table, found, frontier⟩ n s p) :
    Covered ⟨table.record x.pos x.state x.depth, found', frontier'⟩ n s p := by
  rcases h with h | ⟨y, hy, rfl, rfl, hd⟩
  · exact .inl (Nat.le_trans (entry_record_le himp) h)
  · rcases hmem y hy with rfl | hy
    · exact .inl ((entry_record_self hlimit hdepth himp).trans_le hd)
    · exact .inr ⟨y, hy, rfl, rfl, hd⟩

/-- Recording a spot leaves nothing uncovered, if what the spot leads to is covered. -/
theorem Complete.record {table : DepthTable} {found : Attempt} {abandoned : Array Nat}
    {frontier frontier' : List (Spot (buffer.size - offset))} {x : Spot (buffer.size - offset)}
    (hlimit : limit < DepthTable.unseen) (hdepth : x.depth ≤ limit)
    (himp : table.improves x.pos x.state x.depth = true)
    (hmem : ∀ y ∈ frontier, y = x ∨ y ∈ frontier')
    (hnext : x.depth < limit → ∀ q, ∀ e ∈ a.edges x.state,
      e.label.Moves a.classes buffer (offset + x.pos) (offset + q) →
      ∃ y ∈ frontier', y.state = e.target ∧ y.pos = q ∧ y.depth = x.depth + 1)
    (h : Complete a limit buffer offset ⟨table, found, frontier⟩) :
    Complete a limit buffer offset ⟨table.record x.pos x.state x.depth,
      ⟨x.update a found.length, abandoned⟩, frontier'⟩ where
  starts s hs := (h.starts s hs).record hlimit hdepth himp hmem
  edges s p q e he hlt hmoves := by
    -- no entry but that of the spot itself has changed
    by_cases hx : p = x.pos ∧ s = x.state
    · obtain ⟨rfl, rfl⟩ := hx
      dsimp only at hlt ⊢
      rw [entry_record_self hlimit hdepth himp] at hlt ⊢
      obtain ⟨y, hy, hs, hp, hd⟩ := hnext hlt q e he hmoves
      exact .inr ⟨y, hy, hs, hp, Nat.le_of_eq hd⟩
    · have hentry : (table.record x.pos x.state x.depth).entry p s = table.entry p s := by
        rw [DepthTable.entry_record himp, if_neg hx]
      dsimp only at hlt ⊢
      rw [hentry] at hlt ⊢
      exact (h.edges s p q e he hlt hmoves).record hlimit hdepth himp hmem
  finals s p hs hfinal hle := by
    by_cases hx : p = x.pos ∧ s = x.state
    · obtain ⟨rfl, rfl⟩ := hx
      exact Spot.le_update_of_isFinal hfinal
    · dsimp only at hle ⊢
      rw [DepthTable.entry_record himp, if_neg hx] at hle
      obtain ⟨b, hb, hpb⟩ := h.finals s p hs hfinal hle
      obtain ⟨c, hc, hbc⟩ := Spot.le_update_of_mem hb
      exact ⟨c, hc, Nat.le_trans hpb hbc⟩

theorem Complete.step (hlimit : limit < DepthTable.unseen) (hsound : Sound a limit buffer offset c)
    (h : Complete a limit buffer offset c) (hstep : Step a limit buffer offset c c') :
    Complete a limit buffer offset c' := by
  cases hstep with
  | @skip table found frontier rest x hperm himp =>
    have hdepth := (hsound.frontier x (hperm.mem_iff.mpr List.mem_cons_self)).1
    have hentry := entry_le_of_not_improves hlimit hdepth himp
    -- what the spot stood for is recorded already
    have hcovered : ∀ {n s p}, Covered ⟨table, found, frontier⟩ n s p →
        Covered ⟨table, found, rest⟩ n s p := by
      rintro n s p (h | ⟨y, hy, rfl, rfl, hd⟩)
      · exact .inl h
      · rcases List.mem_cons.mp (hperm.mem_iff.mp hy) with rfl | hy
        · exact .inl (Nat.le_trans hentry hd)
        · exact .inr ⟨y, hy, rfl, rfl, hd⟩
    exact ⟨fun s hs => hcovered (h.starts s hs),
      fun s p q e he hlt hmoves => hcovered (h.edges s p q e he hlt hmoves), h.finals⟩
  | @giveUp table found frontier rest x hperm himp hge =>
    have hdepth := (hsound.frontier x (hperm.mem_iff.mpr List.mem_cons_self)).1
    refine h.record hlimit hdepth himp (fun y hy => List.mem_cons.mp (hperm.mem_iff.mp hy)) ?_
    -- a spot at the limit need not lead anywhere
    intro hlt
    exact absurd hlt (Nat.not_lt_of_le hge)
  | @expand table found frontier rest frontier' x hperm himp hlt hperm' =>
    have hdepth := (hsound.frontier x (hperm.mem_iff.mpr List.mem_cons_self)).1
    refine h.record hlimit hdepth himp (fun y hy => ?_) fun _ q e he hmoves => ?_
    · refine (List.mem_cons.mp (hperm.mem_iff.mp hy)).imp_right fun hy => ?_
      exact hperm'.mem_iff.mpr (List.mem_append_right _ hy)
    · refine ⟨⟨e.target, q, x.depth + 1, hmoves.le_size x.pos_le⟩, ?_, rfl, rfl, rfl⟩
      exact hperm'.mem_iff.mpr (List.mem_append_left _
        (Spot.mem_successors.mpr ⟨e, he, rfl, rfl, hmoves⟩))

/-! ## Whole runs -/

theorem Run.invariant (hlimit : limit < DepthTable.unseen) (hrun : Run a limit buffer offset c c')
    (hsound : Sound a limit buffer offset c) (hcomplete : Complete a limit buffer offset c) :
    Sound a limit buffer offset c' ∧ Complete a limit buffer offset c' := by
  induction hrun with
  | refl => exact ⟨hsound, hcomplete⟩
  | tail _ hstep ih => exact ⟨ih.1.step hstep, ih.2.step hlimit ih.1 hstep⟩

/-- When nothing is left to be explored, every trail within the limit is recorded at its end. -/
theorem Complete.entry_le_of_trail (h : Complete a limit buffer offset c) (hc : c.frontier = [])
    (htrail : a.Trail buffer offset n s p) (hn : n ≤ limit) : c.table.entry p s ≤ n := by
  have hentry : ∀ {n s p}, c.Covered n s p → c.table.entry p s ≤ n := by
    rintro n s p (h | ⟨x, hx, -⟩)
    · exact h
    · rw [hc] at hx
      cases hx
  induction htrail with
  | start hs => exact hentry (h.starts _ hs)
  | @step n s p q e _ he hmoves ih =>
    have hle := ih (Nat.le_of_succ_le hn)
    have hcovered := h.edges s p q e he (Nat.lt_of_le_of_lt hle hn) hmoves
    exact hentry (hcovered.mono (Nat.succ_le_succ hle))

/-- The invariants hold before anything was explored. -/
theorem start (hlimit : limit < DepthTable.unseen) {table : DepthTable} (abandoned : Array Nat)
    {frontier : List (Spot (buffer.size - offset))}
    (hblank : ∀ s p, s < a.stateCount → table.entry p s = DepthTable.unseen)
    (hfrontier : frontier.Perm (Attempter.startSpots a _)) :
    Sound a limit buffer offset ⟨table, ⟨none, abandoned⟩, frontier⟩ ∧
      Complete a limit buffer offset ⟨table, ⟨none, abandoned⟩, frontier⟩ := by
  have hmem : ∀ {x}, x ∈ frontier ↔ a.isStart x.state = true ∧ x.pos = 0 ∧ x.depth = 0 :=
    hfrontier.mem_iff.trans Attempter.mem_startSpots
  constructor
  · refine ⟨?_, fun b hb => nomatch hb⟩
    intro x hx
    obtain ⟨hs, hp, hd⟩ := hmem.mp hx
    rw [hp, hd]
    exact ⟨Nat.zero_le limit, .start hs⟩
  · -- a blank table records no depth within the limit
    refine ⟨?_, ?_, ?_⟩
    · intro s hs
      exact .inr ⟨⟨s, 0, 0, Nat.zero_le _⟩, hmem.mpr ⟨hs, rfl, rfl⟩, rfl, rfl, Nat.le_refl _⟩
    · intro s p q e he hlt _
      dsimp only at hlt
      rw [hblank s p (Automaton.lt_stateCount_of_mem_edges he)] at hlt
      omega
    · intro s p hs _ hle
      dsimp only at hle
      rw [hblank s p hs] at hle
      omega

/-- **Every run that empties the frontier finds the longest match within the limit.** -/
theorem isLongest_of_run (ha : a.InRange) (hlimit : limit < DepthTable.unseen)
    {table table' : DepthTable} {abandoned : Array Nat} {found : Attempt}
    {frontier : List (Spot (buffer.size - offset))}
    (hblank : ∀ s p, s < a.stateCount → table.entry p s = DepthTable.unseen)
    (hfrontier : frontier.Perm (Attempter.startSpots a _))
    (hrun : Run a limit buffer offset ⟨table, ⟨none, abandoned⟩, frontier⟩ ⟨table', found, []⟩) :
    IsLongest (a.MatchesWithin limit buffer offset) found.length := by
  obtain ⟨hsound, hcomplete⟩ := start hlimit abandoned hblank hfrontier
  obtain ⟨hsound, hcomplete⟩ := hrun.invariant hlimit hsound hcomplete
  -- the end of a match is recorded within the limit, and its state is final
  have hbest : ∀ p, a.MatchesWithin limit buffer offset p → ∃ b ∈ found.length, p ≤ b := by
    rintro p ⟨n, s, hn, hs, htrail⟩
    have hentry := hcomplete.entry_le_of_trail rfl htrail hn
    exact hcomplete.finals s p (htrail.lt_stateCount ha) hs (Nat.le_trans hentry hn)
  cases hlength : found.length with
  | none =>
    intro p hp
    obtain ⟨b, hb, -⟩ := hbest p hp
    rw [hlength] at hb
    cases hb
  | some b =>
    refine ⟨hsound.best b hlength, fun p hp => ?_⟩
    obtain ⟨b', hb', hle⟩ := hbest p hp
    rw [hlength] at hb'
    obtain rfl := Option.some.inj hb'
    exact hle

end Exploration

/-! ## The longest match -/

namespace Automaton

theorem longestMatch_of_lt (h : buffer.size < offset) :
    a.longestMatch limit buffer offset = ⟨none, #[]⟩ := by
  unfold longestMatch Attempter.longestMatch Attempter.new
  dsimp only
  rw [if_pos h]

theorem longestMatch_of_le (h : offset ≤ buffer.size) :
    a.longestMatch limit buffer offset =
      (explore a limit buffer offset (.empty a.stateCount) none #[]
        (Attempter.startSpots a (buffer.size - offset))).1 := by
  unfold longestMatch Attempter.longestMatch Attempter.new
  dsimp only
  rw [if_neg (Nat.not_lt_of_le h)]
  rfl

theorem entry_empty {width : Nat} (h : s < width) :
    (DepthTable.empty width).entry p s = DepthTable.unseen := if_pos h

theorem isLongest_longestMatch (ha : a.InRange) (hlimit : limit < DepthTable.unseen)
    (h : offset ≤ buffer.size) :
    IsLongest (a.MatchesWithin limit buffer offset)
      (a.longestMatch limit buffer offset).length := by
  rw [longestMatch_of_le h]
  exact isLongest_of_run ha hlimit (fun s p hs => entry_empty hs) (.refl _) (explore_run ..)

/-- **The search is exact, in whichever order it explores.** There is no match beyond the end of
the buffer. Up to there the result is the longest match within the limit, and any other order of
exploring comes to the same result. -/
theorem longestMatch_exact (ha : a.InRange) (hlimit : limit < DepthTable.unseen)
    (buffer : Buffer) (offset : Nat) :
    (buffer.size < offset → (a.longestMatch limit buffer offset).length = none) ∧
    (offset ≤ buffer.size →
      IsLongest (a.MatchesWithin limit buffer offset)
        (a.longestMatch limit buffer offset).length ∧
      ∀ frontier table found, frontier.Perm (Attempter.startSpots a (buffer.size - offset)) →
        Run a limit buffer offset ⟨.empty a.stateCount, ⟨none, #[]⟩, frontier⟩ ⟨table, found, []⟩ →
        found.length = (a.longestMatch limit buffer offset).length) := by
  refine ⟨fun h => by rw [longestMatch_of_lt h], fun h => ?_⟩
  have hlongest := isLongest_longestMatch ha hlimit h
  refine ⟨hlongest, fun frontier table found hfrontier hrun => ?_⟩
  exact (isLongest_of_run ha hlimit (fun s p hs => entry_empty hs) hfrontier hrun).unique hlongest

/-- The path over the anchor is tried first, and reaches the state 0 too late. -/
theorem longestMatch_exact_shallow :
    ∃ a : Automaton, a.rows = #[[⟨1, .byte 0x61⟩], [⟨2, .byte 0x62⟩], [], [⟨0, .anchor .start⟩]] ∧
      (a.longestMatch 2 #[0x61, 0x62] 0).length = some 2 ∧
      IsLongest (a.MatchesWithin 2 #[0x61, 0x62] 0)
        (a.longestMatch 2 #[0x61, 0x62] 0).length := by
  let a : Automaton := ⟨#[[⟨1, .byte 0x61⟩], [⟨2, .byte 0x62⟩], [], [⟨0, .anchor .start⟩]],
    ⟨#[9]⟩, ⟨#[4]⟩, #[]⟩
  have htargets : ∀ s < 4, ∀ e ∈ a.edges s, e.target < 4 := by decide
  have hstarts : ∀ s < 64, a.isStart s = true → s < 4 := by decide
  have ha : a.InRange :=
    ⟨fun he => htargets _ (lt_stateCount_of_mem_edges he) _ he,
      fun hs => hstarts _ (StateSet.lt_capacity_of_contains hs) hs⟩
  exact ⟨a, rfl, by cbv, ((longestMatch_exact ha (by decide) #[0x61, 0x62] 0).2 (by decide)).1⟩

end Automaton

end ByteRegex
