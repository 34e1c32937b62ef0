import ByteRegex.Proofs.Graph.Shape
import ByteRegex.Proofs.Pattern.Compose
import ByteRegex.Proofs.Regex
import ByteRegex.Proofs.Scan.Run
import ByteRegex.Proofs.Thompson.FastUnion
import Mathlib

/-!
# Merging alternatives is only an optimization

A pattern that compiles without merging alternatives compiles with merging too, to an automaton that
has not more states and the same words (`Nfa.exists_ofTree_fastUnion`, `Nfa.exists_reduce`). A
search counts the letters of a word and not how an automaton spells it, so both find the same
matches, also where the limit on the depth cuts the search (`Automaton.length_longestMatch_congr`).
What a scan reports depends on nothing else (`Scan.remaining_new_congr`).
-/

namespace ByteRegex

variable {pattern : List Byte} {flags : Flags} {tree : Tree} {nfa nfa' : Nfa} {a b : Automaton}
  {limit : Nat} {buffer : Buffer} {offset : Nat} {r : Regex}

/-! ## Stages -/

namespace Nfa

/-- The fragment of a pattern's tree has a refinement with the same classes where alternatives are
merged. -/
theorem exists_ofTree_fastUnion (htree : Tree.parse pattern = .ok tree)
    (h : ofTree { fastUnion := false } tree = .ok nfa) :
    ∃ nfa', ofTree { fastUnion := true } tree = .ok nfa' ∧ nfa'.classes = nfa.classes ∧
      nfa'.fragment.Refines nfa.fragment := by
  by_cases hpattern : pattern = []
  · subst hpattern
    obtain rfl := Except.ok.inj htree
    obtain rfl := Except.ok.inj h
    exact ⟨_, rfl, rfl, .refl .epsilon⟩
  · obtain ⟨s, -, -, hordered⟩ := Tree.exists_writes_of_parse hpattern htree
    rw [ofTree_eq_of_ofOrdered hordered] at h
    obtain ⟨⟨g, classes⟩, hg, rfl⟩ := map_eq_ok h
    obtain ⟨f, hf, hrefines⟩ := TokenTree.exists_compile_fastUnion hg
    refine ⟨⟨f, classes⟩, ?_, rfl, hrefines⟩
    rw [ofTree_eq_of_ofOrdered hordered, hf]
    rfl

/-- A refinement can be reduced within the same limit, to an automaton that accepts the same words
with as many states at most. -/
theorem exists_reduce (h : nfa'.fragment.Refines nfa.fragment) (ha : nfa.reduce limit = .ok a) :
    ∃ a', nfa'.reduce limit = .ok a' ∧ a'.stateCount ≤ a.stateCount ∧
      a'.language = a.language := by
  have hsize : (Reduction.ofFragment nfa'.fragment).graph.size ≤
      (Reduction.ofFragment nfa.fragment).graph.size := by
    rw [Reduction.size_ofFragment h.built.wellFormed h.built.trim,
      Reduction.size_ofFragment h.built_right.wellFormed h.built_right.trim]
    exact h.live_le True False
  have hle := (reduce_eq_ok_iff.mp ha).1
  have ha' := reduce_eq_ok_iff.mpr ⟨Nat.le_trans hsize hle, rfl⟩
  refine ⟨_, ha', ?_, ?_⟩
  · rw [eq_of_reduce ha, Graph.stateCount_toAutomaton, Graph.stateCount_toAutomaton]
    exact hsize
  · rw [language_of_reduce h.built.wellFormed ha', h.language_eq,
      language_of_reduce h.built_right.wellFormed ha]

end Nfa

/-! ## Searches and scans -/

/-- **Automata with the same words find the same longest matches**, also where the limit cuts the
search. -/
theorem Automaton.length_longestMatch_congr (ha : a.InRange) (hb : b.InRange)
    (hwords : a.language = b.language) (hclasses : a.classes = b.classes)
    (hlimit : limit < DepthTable.unseen) :
    (a.longestMatch limit buffer offset).length = (b.longestMatch limit buffer offset).length := by
  by_cases hoffset : offset ≤ buffer.size
  · have hmatches : ∀ length, a.MatchesWithin limit buffer offset length ↔
        b.MatchesWithin limit buffer offset length := by
      intro length
      rw [matchesWithin_iff, matchesWithin_iff, hwords, hclasses]
    exact ((isLongest_longestMatch ha hlimit hoffset).congr hmatches).unique
      (isLongest_longestMatch hb hlimit hoffset)
  · have hlt := Nat.lt_of_not_le hoffset
    rw [longestMatch_of_lt hlt, longestMatch_of_lt hlt]

/-- What is left of a scan depends on the longest matches only. -/
theorem Scan.remaining_new_congr (h : a.lengthAt = b.lengthAt) (buffer : Buffer)
    (global multiline : Bool) :
    (new a buffer global multiline).remaining a = (new b buffer global multiline).remaining b := by
  have hunit : ScanUnit.remaining a = ScanUnit.remaining b := by
    funext u
    simp only [ScanUnit.remaining, Automaton.foundsFrom, h]
  simp only [remaining, ScanUnit.remainingIn, hunit]
  rfl

/-! ## Merging -/

/-- **Merging alternatives is only an optimization.** A pattern that compiles without it compiles
with it. Neither the fragment nor the automaton has more states then, and at every offset of every
buffer the longest match is the same, for every limit on the depth that a depth table can hold. So
are the reports of a scan, with either setting of the two flags that govern it. -/
theorem Regex.merging_finds_same (h : compile pattern { flags with noMerge := true } = .ok r) :
    ∃ r' tree nfa nfa', compile pattern { flags with noMerge := false } = .ok r' ∧
      Tree.parse pattern = .ok tree ∧
      Nfa.ofTree { fastUnion := false } tree = .ok nfa ∧
      nfa.reduce maxAutomatonStates = .ok r.automaton ∧
      Nfa.ofTree { fastUnion := true } tree = .ok nfa' ∧
      nfa'.reduce maxAutomatonStates = .ok r'.automaton ∧
      nfa'.fragment.size ≤ nfa.fragment.size ∧
      r'.automaton.stateCount ≤ r.automaton.stateCount ∧
      (∀ limit < DepthTable.unseen, ∀ buffer offset,
        (r'.automaton.longestMatch limit buffer offset).length =
          (r.automaton.longestMatch limit buffer offset).length) ∧
      (∀ buffer offset, r'.longestMatchAt buffer offset = r.longestMatchAt buffer offset) ∧
      ∀ buffer global multiline,
        (∀ n, ((Scan.new r'.automaton buffer global multiline).steps n).map (·.found) =
          ((Scan.new r.automaton buffer global multiline).steps n).map (·.found)) ∧
        (Scan.new r'.automaton buffer global multiline).allMatches =
          (Scan.new r.automaton buffer global multiline).allMatches := by
  obtain ⟨tree, nfa, a, htree, hnfa, ha, rfl⟩ := compile_eq_ok_iff.mp h
  obtain ⟨nfa', hnfa', hclasses, hrefines⟩ := Nfa.exists_ofTree_fastUnion htree hnfa
  obtain ⟨a', ha', hcount, hwords⟩ := Nfa.exists_reduce hrefines ha
  have hclasses' : a'.classes = a.classes := by
    rw [Nfa.classes_of_reduce ha', hclasses, Nfa.classes_of_reduce ha]
  have hlength {limit : Nat} (hlimit : limit < DepthTable.unseen) (buffer : Buffer)
      (offset : Nat) : (a'.longestMatch limit buffer offset).length =
        (a.longestMatch limit buffer offset).length :=
    Automaton.length_longestMatch_congr (Nfa.inRange_of_reduce ha') (Nfa.inRange_of_reduce ha)
      hwords hclasses' hlimit
  have hlengthAt : a'.lengthAt = a.lengthAt := by
    funext buffer offset
    exact hlength (by decide) buffer offset
  refine ⟨⟨a', { flags with noMerge := false }⟩, tree, nfa, nfa',
    compile_eq_ok_iff.mpr ⟨tree, nfa', a', htree, hnfa', ha', rfl⟩, htree, hnfa, ha, hnfa', ha',
    hrefines.size_le, hcount, fun _ hlimit => hlength hlimit,
    fun buffer offset => congrFun (congrFun hlengthAt buffer) offset, ?_⟩
  intro buffer global multiline
  have hremaining := Scan.remaining_new_congr hlengthAt buffer global multiline
  constructor
  · intro n
    rw [Scan.found_steps Scan.ready_new, hremaining, ← Scan.found_steps Scan.ready_new]
  · rw [← Array.toList_inj, Scan.allMatches_eq Scan.ready_new, hremaining,
      Scan.allMatches_eq Scan.ready_new]

/-- The pattern `a|b`: five states without merging, and two with it. -/
theorem Regex.merging_finds_same_bar :
    ∃ r r', compile [0x61, 0x7C, 0x62] { noMerge := true } = .ok r ∧
      compile [0x61, 0x7C, 0x62] {} = .ok r' ∧ r.automaton.stateCount = 5 ∧
      r'.automaton.stateCount = 2 ∧ r'.automaton.stateCount ≤ r.automaton.stateCount ∧
      r'.longestMatchAt #[0x63, 0x62] 1 = r.longestMatchAt #[0x63, 0x62] 1 ∧
      (Scan.new r'.automaton #[0x63, 0x62] true true).allMatches =
        (Scan.new r.automaton #[0x63, 0x62] true true).allMatches := by
  have hplain : (compile [0x61, 0x7C, 0x62] { noMerge := true }).map (·.automaton.stateCount) =
      .ok 5 := by cbv
  have hmerged : (compile [0x61, 0x7C, 0x62] {}).map (·.automaton.stateCount) = .ok 2 := by cbv
  obtain ⟨r, hr, hfive⟩ := map_eq_ok hplain
  obtain ⟨r', -, -, -, hr', -, -, -, -, -, -, hcount, -, hlongest, hscan⟩ :=
    @merging_finds_same _ {} r hr
  obtain ⟨s, hs, htwo⟩ := map_eq_ok hmerged
  cases hr'.symm.trans hs
  exact ⟨r, r', hr, hr', hfive, htwo, hcount, hlongest _ _, (hscan _ true true).2⟩

end ByteRegex
