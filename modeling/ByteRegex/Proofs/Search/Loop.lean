import ByteRegex.Proofs.Search.Attempts
import Mathlib

/-!
# The loop of a search

`Exploration.next` is one iteration of the loop that `explore` runs: it takes the newest spot from
the frontier. The iterations of an attempt end in what the attempt finds
(`Exploration.exists_iterate_explore`).

## Termination

The frontier may grow, and spots are explored again, so neither the frontier nor the number of
explored spots is a measure by itself. Each step makes progress in one of two ways
(`Exploration.Advances`): the frontier gets shorter and the table stays, or one entry of the table
gets smaller and the others stay. A step of the second kind adds no more spots than there are edges,
so the length of the frontier plus the weight of the table times the number of edges gets smaller in
each step (`Exploration.Step.potential_lt`). The entries of a blank table are what 32 bits hold, so
the number of iterations is bounded (`Automaton.maxIterations`), in whichever order spots are taken
and whatever the limit is.
-/

namespace ByteRegex

variable {a : Automaton} {limit : Nat} {buffer : Buffer} {offset last n pos state : Nat}

/-! ## Iterations -/

namespace Exploration

/-- One iteration of the loop: the newest spot is passed over, given up or explored. There is no
iteration once the frontier is empty. -/
def next (a : Automaton) (limit : Nat) (buffer : Buffer) (offset : Nat) :
    Exploration (buffer.size - offset) → Option (Exploration (buffer.size - offset))
  | ⟨_, _, []⟩ => none
  | ⟨table, found, x :: rest⟩ =>
    if table.improves x.pos x.state x.depth then
      let table := table.record x.pos x.state x.depth
      let best := x.update a found.length
      if limit ≤ x.depth then some ⟨table, ⟨best, found.abandoned.push x.depth⟩, rest⟩
      else
        some ⟨table, ⟨best, found.abandoned⟩,
          x.pushAll a.classes buffer offset (a.edges x.state) rest⟩
    else some ⟨table, found, rest⟩

/-- The state after `n` iterations, if there are as many. -/
def iterate (a : Automaton) (limit : Nat) (buffer : Buffer) (offset n : Nat)
    (c : Exploration (buffer.size - offset)) : Option (Exploration (buffer.size - offset)) :=
  (·.bind (next a limit buffer offset))^[n] (some c)

variable {c c' : Exploration (buffer.size - offset)}

theorem iterate_succ (h : next a limit buffer offset c = some c') :
    iterate a limit buffer offset (n + 1) c = iterate a limit buffer offset n c' := by
  rw [iterate, Function.iterate_succ_apply, Option.bind_some, h, iterate]

theorem iterate_succ_eq_some_iff : iterate a limit buffer offset (n + 1) c = some c' ↔
    ∃ d, iterate a limit buffer offset n c = some d ∧ next a limit buffer offset d = some c' := by
  rw [iterate, Function.iterate_succ_apply', Option.bind_eq_some_iff]
  rfl

/-- **The iterations of the loop end in what is explored.** -/
theorem exists_iterate_explore (table : DepthTable) (best : Option Nat) (abandoned : Array Nat)
    (frontier : List (Spot (buffer.size - offset))) :
    ∃ n, iterate a limit buffer offset n ⟨table, ⟨best, abandoned⟩, frontier⟩ =
      some ⟨(explore a limit buffer offset table best abandoned frontier).2,
        (explore a limit buffer offset table best abandoned frontier).1, []⟩ := by
  fun_induction explore a limit buffer offset table best abandoned frontier with
  | case1 => exact ⟨0, rfl⟩
  | case2 table best abandoned x rest himp table' best' hlimit ih =>
    obtain ⟨n, hn⟩ := ih
    refine ⟨n + 1, (iterate_succ ?_).trans hn⟩
    rw [next, if_pos himp, if_pos hlimit]
    rfl
  | case3 table best abandoned x rest himp table' best' hlimit ih =>
    obtain ⟨n, hn⟩ := ih
    refine ⟨n + 1, (iterate_succ ?_).trans hn⟩
    rw [next, if_pos himp, if_neg hlimit]
    rfl
  | case4 table best abandoned x rest himp ih =>
    obtain ⟨n, hn⟩ := ih
    refine ⟨n + 1, (iterate_succ ?_).trans hn⟩
    rw [next, if_neg himp]

/-- An iteration is a step that takes the newest spot. -/
theorem step_of_next (h : next a limit buffer offset c = some c') :
    Step a limit buffer offset c c' := by
  obtain ⟨table, found, frontier⟩ := c
  cases frontier with
  | nil => cases h
  | cons x rest =>
    rw [next] at h
    split at h
    · next himp =>
      dsimp only at h
      split at h
      · next hlimit =>
        obtain rfl := Option.some.inj h
        exact .giveUp (.refl _) himp hlimit
      · next hlimit =>
        obtain rfl := Option.some.inj h
        refine .expand (.refl _) himp (Nat.lt_of_not_le hlimit) ?_
        rw [Spot.pushAll_eq]
        exact (List.reverse_perm _).append_right rest
    · next himp =>
      obtain rfl := Option.some.inj h
      exact .skip (.refl _) (Bool.eq_false_of_not_eq_true himp)

theorem run_of_iterate (h : iterate a limit buffer offset n c = some c') :
    Run a limit buffer offset c c' := by
  induction n generalizing c' with
  | zero =>
    obtain rfl : c = c' := Option.some.inj h
    exact .refl
  | succ n ih =>
    obtain ⟨d, hd, hnext⟩ := iterate_succ_eq_some_iff.mp h
    exact (ih hd).tail (step_of_next hnext)

/-! ## Progress -/

/-- What a step achieves. -/
inductive Advances {last : Nat} (c c' : Exploration last) : Prop where
  /-- The frontier gets shorter. -/
  | shrinks : c'.table = c.table → c'.frontier.length < c.frontier.length → Advances c c'
  /-- One entry gets smaller. -/
  | lowers {pos state : Nat} : pos ≤ last → state < c.table.width →
    c'.table.entry pos state < c.table.entry pos state →
    (∀ pos' state', ¬ (pos' = pos ∧ state' = state) →
      c'.table.entry pos' state' = c.table.entry pos' state') → Advances c c'

theorem Advances.record {table : DepthTable} {found found' : Attempt}
    {frontier frontier' : List (Spot last)} {x : Spot last}
    (h : table.improves x.pos x.state x.depth = true) :
    Advances ⟨table, found, frontier⟩ ⟨table.record x.pos x.state x.depth, found', frontier'⟩ := by
  refine .lowers x.pos_le (DepthTable.lt_width_of_improves h) ?_ fun pos' state' hne => ?_
  · dsimp only
    rw [DepthTable.entry_record h, if_pos ⟨rfl, rfl⟩]
    exact of_decide_eq_true h
  · dsimp only
    rw [DepthTable.entry_record h, if_neg hne]

/-- **Every step makes progress.** -/
theorem Step.advances (h : Step a limit buffer offset c c') : Advances c c' := by
  cases h with
  | skip hperm _ => exact .shrinks rfl (hperm.length_eq ▸ Nat.lt_succ_self _)
  | giveUp _ himp _ => exact .record himp
  | expand _ himp _ _ => exact .record himp

theorem Advances.entry_le {c c' : Exploration last} (h : Advances c c') (pos state : Nat) :
    c'.table.entry pos state ≤ c.table.entry pos state := by
  cases h with
  | shrinks htable _ => rw [htable]
  | @lowers p s _ _ hlt hsame =>
    by_cases heq : pos = p ∧ state = s
    · obtain ⟨rfl, rfl⟩ := heq
      exact Nat.le_of_lt hlt
    · exact Nat.le_of_eq (hsame pos state heq)

theorem Run.entry_le (h : Run a limit buffer offset c c') (pos state : Nat) :
    c'.table.entry pos state ≤ c.table.entry pos state := by
  induction h with
  | refl => exact Nat.le_refl _
  | tail _ hstep ih => exact Nat.le_trans (hstep.advances.entry_le pos state) ih

/-! ## The measure -/

/-- The length of the frontier, and what the edges could still add to it. -/
def potential (a : Automaton) (c : Exploration last) : Nat :=
  c.frontier.length + a.edgeCount * c.table.weight last

theorem length_successors_le {classes : Array ByteClass} {x : Spot (buffer.size - offset)} :
    (x.successors classes buffer offset (a.edges state)).length ≤ a.edgeCount :=
  Nat.le_trans (List.length_filterMap_le _ _) Automaton.length_edges_le

/-- A step of either kind lowers the potential: a smaller entry outweighs what is pushed for it. -/
theorem Step.potential_lt (h : Step a limit buffer offset c c') :
    c'.potential a < c.potential a := by
  unfold potential
  cases h with
  | @skip table found frontier rest x hperm himp =>
    have hlength : frontier.length = rest.length + 1 := hperm.length_eq
    dsimp only
    omega
  | @giveUp table found frontier rest x hperm himp _ =>
    have hlength : frontier.length = rest.length + 1 := hperm.length_eq
    have hweight := Nat.mul_le_mul_left a.edgeCount
      (Nat.le_of_lt (DepthTable.weight_record_lt himp x.pos_le))
    dsimp only
    omega
  | @expand table found frontier rest frontier' x hperm himp _ hperm' =>
    have hlength : frontier.length = rest.length + 1 := hperm.length_eq
    have hlength' := hperm'.length_eq
    rw [List.length_append] at hlength'
    have hpushed : (x.successors a.classes buffer offset (a.edges x.state)).length ≤ a.edgeCount :=
      length_successors_le
    have hweight := Nat.mul_le_mul_left a.edgeCount
      (Nat.succ_le_of_lt (DepthTable.weight_record_lt himp x.pos_le))
    rw [Nat.succ_eq_add_one, Nat.mul_add_one] at hweight
    dsimp only
    omega

theorem add_potential_le_of_iterate (h : iterate a limit buffer offset n c = some c') :
    n + c'.potential a ≤ c.potential a := by
  induction n generalizing c' with
  | zero =>
    obtain rfl : c = c' := Option.some.inj h
    omega
  | succ n ih =>
    obtain ⟨d, hd, hnext⟩ := iterate_succ_eq_some_iff.mp h
    have := ih hd
    have := (step_of_next hnext).potential_lt
    omega

end Exploration

/-! ## Blank tables -/

namespace DepthTable

theorem sumBelow_const (k n : Nat) : sumBelow (fun _ => k) n = n * k := by
  induction n with
  | zero => exact (Nat.zero_mul k).symm
  | succ n ih => rw [sumBelow, ih, Nat.succ_mul]

theorem weight_le {t : DepthTable} (h : ∀ pos state, t.entry pos state ≤ unseen) (last : Nat) :
    t.weight last ≤ (last + 1) * (t.width * unseen) :=
  calc t.weight last
    _ ≤ sumBelow (fun _ => sumBelow (fun _ => unseen) t.width) (last + 1) :=
      sumBelow_le (fun pos => sumBelow_le (h pos) t.width) (last + 1)
    _ = (last + 1) * (t.width * unseen) := by rw [sumBelow_const, sumBelow_const]

theorem Tidy.entry_clear_le {t : DepthTable} (h : t.Tidy) (pos state : Nat) :
    t.clear.entry pos state ≤ unseen := by
  by_cases hs : state < t.width
  · exact Nat.le_of_eq (h.entry_clear hs)
  · rw [entry, width_clear, if_neg hs]
    exact Nat.zero_le _

end DepthTable

/-- A bound for the number of iterations of an attempt with positions up to `last`. -/
def Automaton.maxIterations (a : Automaton) (last : Nat) : Nat :=
  a.starts.toList.length + a.edgeCount * ((last + 1) * (a.stateCount * DepthTable.unseen))

/-! ## Attempts -/

namespace Attempter

open Exploration

/-- The state before the first iteration of an attempt. -/
def initial (t : Attempter) (buffer : Buffer) (offset : Nat) : Exploration (buffer.size - offset) :=
  ⟨t.table.clear, ⟨none, #[]⟩, startSpots t.automaton _⟩

variable {t : Attempter}

theorem longestMatch_of_lt (h : buffer.size < offset) :
    t.longestMatch buffer offset = (⟨none, #[]⟩, t) := by
  rw [longestMatch]
  dsimp only
  rw [if_pos h]

namespace Ready

variable {c : Exploration (buffer.size - offset)}

/-- The loop of an attempt ends in the result of the attempt. -/
theorem exists_iterate (h : Ready a limit t) (hle : offset ≤ buffer.size) :
    ∃ n c, iterate a limit buffer offset n (t.initial buffer offset) = some c ∧
      c.frontier = [] ∧ t.longestMatch buffer offset = (c.found, { t with table := c.table }) := by
  obtain ⟨rfl, rfl, -, -⟩ := h
  obtain ⟨n, hn⟩ := exists_iterate_explore t.table.clear none #[] (startSpots t.automaton _)
  refine ⟨n, _, hn, rfl, ?_⟩
  rw [longestMatch]
  dsimp only
  rw [if_neg (Nat.not_lt_of_le hle)]

theorem sound_initial (h : Ready a limit t) :
    Sound a limit buffer offset (t.initial buffer offset) := by
  obtain ⟨rfl, rfl, -, -⟩ := h
  exact sound_startSpots

theorem potential_initial_le (h : Ready a limit t) :
    (t.initial buffer offset).potential a ≤ a.maxIterations (buffer.size - offset) := by
  obtain ⟨rfl, rfl, hwidth, htidy⟩ := h
  have hweight := DepthTable.weight_le htidy.entry_clear_le (buffer.size - offset)
  rw [DepthTable.width_clear, hwidth] at hweight
  have hlength : (startSpots t.automaton (buffer.size - offset)).length =
      t.automaton.starts.toList.length := by
    rw [startSpots, List.length_map, List.length_reverse]
  exact Nat.add_le_add (Nat.le_of_eq hlength) (Nat.mul_le_mul_left _ hweight)

/-- Depths stay within the limit, and entries within 32 bits. -/
theorem bounds_of_iterate (h : Ready a limit t)
    (hc : iterate a limit buffer offset n (t.initial buffer offset) = some c) :
    n ≤ a.maxIterations (buffer.size - offset) ∧ (∀ x ∈ c.frontier, x.depth ≤ limit) ∧
      ∀ pos state, c.table.entry pos state ≤ DepthTable.unseen := by
  have hpotential := add_potential_le_of_iterate hc
  have hinitial : (t.initial buffer offset).potential a ≤ _ := h.potential_initial_le
  refine ⟨by omega, fun x hx => ?_, fun pos state => ?_⟩
  · exact (((run_of_iterate hc).sound h.sound_initial).frontier x hx).1
  · exact Nat.le_trans ((run_of_iterate hc).entry_le pos state) (h.tidy.entry_clear_le pos state)

end Ready

/-- **The loop of an attempt ends**, for every automaton and for every limit that 64 bits hold, also
after any other tries. Each iteration makes progress, and neither the depths nor what is recorded of
them outgrow their words. -/
theorem longestMatch_terminates (a : Automaton) {limit : Nat} (hlimit : limit < 2 ^ 64)
    (tries : List Try) (buffer : Buffer) (offset : Nat) :
    let t := (new a limit).after tries
    (buffer.size < offset → t.longestMatch buffer offset = (⟨none, #[]⟩, t)) ∧
    (offset ≤ buffer.size →
      (∃ n c, iterate a limit buffer offset n (t.initial buffer offset) = some c ∧
        c.frontier = [] ∧
        t.longestMatch buffer offset = (c.found, { t with table := c.table })) ∧
      ∀ n c, iterate a limit buffer offset n (t.initial buffer offset) = some c →
        n ≤ a.maxIterations (buffer.size - offset) ∧
        (∀ x ∈ c.frontier, x.pos ≤ buffer.size - offset ∧ x.depth < 2 ^ 64) ∧
        (∀ pos state, c.table.entry pos state < 2 ^ 32) ∧
        ∀ c', next a limit buffer offset c = some c' → Advances c c') := by
  intro t
  have hready : Ready a limit t := (ready_new a limit).after tries
  refine ⟨longestMatch_of_lt, fun hle => ⟨hready.exists_iterate hle, fun n c hc => ?_⟩⟩
  obtain ⟨hn, hdepth, hentry⟩ := hready.bounds_of_iterate hc
  refine ⟨hn, fun x hx => ⟨x.pos_le, ?_⟩, fun pos state => ?_, fun c' h => ?_⟩
  · exact Nat.lt_of_le_of_lt (hdepth x hx) hlimit
  · exact Nat.lt_of_le_of_lt (hentry pos state) (by decide)
  · exact (step_of_next h).advances

/-- A loop of an epsilon, a cycle over an anchor and the greatest limit. -/
theorem longestMatch_terminates_cycle :
    let a : Automaton := ⟨#[[⟨0, .epsilon⟩, ⟨1, .anchor .start⟩], [⟨0, .epsilon⟩, ⟨1, .byte 0x61⟩]],
      ⟨#[1]⟩, ⟨#[2]⟩, #[]⟩
    let t := (new a (2 ^ 64 - 1)).after [⟨#[0x61, 0x61, 0x61], 0⟩, ⟨#[0x61], 2⟩]
    (t.longestMatch #[0x61, 0x61] 0).1 = ⟨some 2, #[]⟩ ∧
    ∃ n c, iterate a (2 ^ 64 - 1) #[0x61, 0x61] 0 n (t.initial #[0x61, 0x61] 0) = some c ∧
      c.frontier = [] ∧ n ≤ a.maxIterations 2 := by
  intro a t
  obtain ⟨-, hloop⟩ := longestMatch_terminates a (by decide : 2 ^ 64 - 1 < 2 ^ 64)
    [⟨#[0x61, 0x61, 0x61], 0⟩, ⟨#[0x61], 2⟩] #[0x61, 0x61] 0
  obtain ⟨⟨n, c, hc, hempty, -⟩, hbounds⟩ := hloop (Nat.zero_le 2)
  exact ⟨by cbv, n, c, hc, hempty, (hbounds n c hc).1⟩

end Attempter

end ByteRegex
