import ByteRegex.Proofs.Regex
import ByteRegex.Proofs.Search.Bounds
import ByteRegex.Proofs.Thompson.Built

/-!
# Searching for a pattern stays in bounds

Each stage of compilation leaves its part of what a search relies on: labels name classes of the
pool (`Nfa.lt_size_of_mem_edges`), reduction adds no label (`Reduction.exists_mem_edges`) and
numbers targets and starts below the number of states (`Nfa.inRange_of_reduce`), and the rows are
sorted when the automaton is made of them. So the automaton of a pattern is valid
(`Nfa.valid_of_reduce`), and every iteration of every attempt on it finds what it looks up
(`Regex.search_in_bounds`).
-/

namespace ByteRegex

variable {pattern : List Byte} {flags : Flags} {r : Regex} {tree : Tree} {nfa : Nfa} {a : Automaton}
  {cfg : Thompson.Settings} {limit : Nat}

/-- The automaton of a pattern is valid. -/
theorem Nfa.valid_of_reduce (htree : Tree.parse pattern = .ok tree)
    (hnfa : Nfa.ofTree cfg tree = .ok nfa) (ha : nfa.reduce limit = .ok a) : a.Valid where
  toInRange := inRange_of_reduce ha
  class_lt he hid := by
    rw [eq_of_reduce ha] at he
    obtain ⟨q, d, hd, hlabel⟩ := Reduction.exists_mem_edges (Graph.mem_edges_toAutomaton.mp he)
    rw [classes_of_reduce ha]
    exact lt_size_of_mem_edges htree hnfa hd (hlabel.trans hid)
  pairwise_edges s := by
    rw [eq_of_reduce ha]
    exact Automaton.pairwise_edges_ofEdges

namespace Regex

open Exploration

theorem valid_of_compile (h : compile pattern flags = .ok r) : r.automaton.Valid := by
  obtain ⟨tree, nfa, a, htree, hnfa, ha, rfl⟩ := compile_eq_ok_iff.mp h
  exact Nfa.valid_of_reduce htree hnfa ha

/-- **Searching for a pattern stays in bounds.** The matrix of its automaton is sound and has the
automaton's rows. After any tries, the rows of the depth table that are to be wiped are there. The
loop of the next attempt ends, and in each of its states the spots of the frontier are in bounds,
and only positions up to the end of the buffer are recorded. Beyond the end nothing is looked up. -/
theorem search_in_bounds (h : compile pattern flags = .ok r) (limit : Nat) (tries : List Try)
    (buffer : Buffer) (offset : Nat) :
    let a := r.automaton
    let t := (Attempter.new a limit).after tries
    a.matrix.Sound ∧ (∀ s < a.stateCount, a.matrix.row s = a.edges s) ∧
    t.table.used ≤ t.table.rows.size ∧
    (buffer.size < offset → t.longestMatch buffer offset = (⟨none, #[]⟩, t)) ∧
    (offset ≤ buffer.size →
      (∃ n c, iterate a limit buffer offset n (t.initial buffer offset) = some c ∧
        c.frontier = [] ∧
        t.longestMatch buffer offset = (c.found, { t with table := c.table })) ∧
      ∀ n c, iterate a limit buffer offset n (t.initial buffer offset) = some c →
        (∀ x ∈ c.frontier, x.InBounds a buffer offset c.table) ∧
        ∀ pos, ∀ state < a.stateCount, c.table.entry pos state ≠ DepthTable.unseen →
          pos ≤ buffer.size - offset) := by
  intro a t
  have ha : a.Valid := valid_of_compile h
  have hready : Attempter.Ready a limit t := (Attempter.ready_new a limit).after tries
  refine ⟨Automaton.sound_matrix ha.toInRange, ?_, ?_, Attempter.longestMatch_of_lt, ?_⟩
  · intro s hs
    exact Automaton.row_matrix ha.toInRange hs (ha.pairwise_edges s)
  · exact (Attempter.ready_new a limit).used_le_after ha.toInRange (Nat.le_refl 0) tries
  · intro hle
    refine ⟨hready.exists_iterate hle, fun n c hc => ?_⟩
    have hfits := (hready.fits_initial ha.toInRange).run ha.toInRange (run_of_iterate hc)
    exact ⟨fun x hx => hfits.inBounds ha hle hx, fun pos state hs => hfits.le_last hs⟩

set_option maxRecDepth 10000 in
/-- The pattern `[^ab]\b`, which has a class and an anchor, after a try beyond the end. -/
theorem search_in_bounds_class :
    ∃ r, compile [0x5B, 0x5E, 0x61, 0x62, 0x5D, 0x5C, 0x62] {} = .ok r ∧
      r.automaton.classes.size = 1 ∧
      let t := (Attempter.new r.automaton 9).after [⟨#[0x63, 0x64], 1⟩, ⟨#[0x63], 2⟩]
      (t.longestMatch #[0x63, 0x20] 0).1.length = some 1 ∧
        ∃ n c, iterate r.automaton 9 #[0x63, 0x20] 0 n (t.initial #[0x63, 0x20] 0) = some c ∧
          ∀ pos, ∀ state < r.automaton.stateCount,
            c.table.entry pos state ≠ DepthTable.unseen → pos ≤ 2 := by
  have h : compile [0x5B, 0x5E, 0x61, 0x62, 0x5D, 0x5C, 0x62] {} = .ok ⟨⟨#[[⟨1, .classRef 0⟩],
      [⟨2, .anchor .wordBoundary⟩], []], ⟨#[1]⟩, ⟨#[4]⟩,
      #[⟨true, (ByteSet.empty.insert 0x61).insert 0x62⟩]⟩, {}⟩ := by cbv
  obtain ⟨-, -, -, -, hloop⟩ :=
    search_in_bounds h 9 [⟨#[0x63, 0x64], 1⟩, ⟨#[0x63], 2⟩] #[0x63, 0x20] 0
  obtain ⟨⟨n, c, hc, -, -⟩, hbounds⟩ := hloop (Nat.zero_le 2)
  exact ⟨_, h, rfl, by cbv, n, c, hc, (hbounds n c hc).2⟩

end Regex

end ByteRegex
