import ByteRegex.Proofs.Graph.Reduce
import ByteRegex.Proofs.Pattern.Build
import ByteRegex.Proofs.Search.Exploration
import ByteRegex.Proofs.Search.Word
import ByteRegex.Proofs.Thompson
import ByteRegex.Regex
import Mathlib

/-!
# A compiled pattern matches what its tree describes

The tree of a pattern has its root among its nodes, so its fragment realizes the expression that it
stands for. Reduction keeps the words (`Regex.exists_of_compile`), and a search finds the longest
way to read one of them.
-/

namespace ByteRegex

variable {pattern : List Byte} {flags : Flags} {r : Regex} {t : Tree}

/-! ## Compilation -/

namespace Regex

/-- A pattern compiles if each stage succeeds. -/
theorem compile_eq_ok_iff : compile pattern flags = .ok r ↔
    ∃ t nfa a, Tree.parse pattern = .ok t ∧
      Nfa.ofTree { fastUnion := !flags.noMerge } t = .ok nfa ∧
      nfa.reduce maxAutomatonStates = .ok a ∧ r = ⟨a, flags⟩ := by
  constructor
  · intro h
    obtain ⟨t, ht, h⟩ := bind_eq_ok h
    obtain ⟨nfa, hnfa, h⟩ := bind_eq_ok h
    obtain ⟨a, ha, h⟩ := bind_eq_ok h
    exact ⟨t, nfa, a, mapError_eq_ok_iff.mp ht, mapError_eq_ok_iff.mp hnfa,
      mapError_eq_ok_iff.mp ha, (Except.ok.inj h).symm⟩
  · rintro ⟨t, nfa, a, ht, hnfa, ha, rfl⟩
    rw [compile, bind_of_eq_ok (mapError_eq_ok_iff.mpr ht),
      bind_of_eq_ok (mapError_eq_ok_iff.mpr hnfa), bind_of_eq_ok (mapError_eq_ok_iff.mpr ha)]
    rfl

/-- The automaton of a pattern accepts the words of the expression that its tree stands for. -/
theorem exists_of_compile (h : compile pattern flags = .ok r) :
    ∃ t e, Tree.parse pattern = .ok t ∧ t.Denotes e ∧ r.automaton.InRange ∧
      r.automaton.language.map (Label.letter? r.automaton.classes) = e.language.map some := by
  obtain ⟨t, nfa, a, ht, hnfa, ha, rfl⟩ := compile_eq_ok_iff.mp h
  obtain ⟨e, he, hrealizes⟩ := Nfa.realizes_ofTree (Tree.root_lt_of_parse ht) hnfa
  refine ⟨t, e, ht, he, Nfa.inRange_of_reduce ha, ?_⟩
  rw [Nfa.classes_of_reduce ha, Nfa.language_of_reduce hrealizes.wellFormed ha]
  exact hrealizes.language

/-- A search at an offset finds the longest derivation of the expression of the pattern's tree. -/
theorem isLongest_of_compile {e : Expr} {buffer : Buffer} {offset : Nat}
    (h : compile pattern flags = .ok r) (ht : Tree.parse pattern = .ok t) (he : t.Denotes e)
    (hoffset : offset ≤ buffer.size) :
    IsLongest (fun length => ∃ n ≤ 100000, e.Derives buffer ⟨0, offset⟩ ⟨n, offset + length⟩)
      (r.longestMatchAt buffer offset) := by
  obtain ⟨t', e', ht', he', hrange, hwords⟩ := exists_of_compile h
  cases ht.symm.trans ht'
  obtain rfl := he.unique he'
  exact (Automaton.isLongest_longestMatch hrange (by decide) hoffset).congr fun _ =>
    Automaton.matchesWithin_iff_derives hwords

/-- **The longest match at an offset is the longest derivation of the expression that the pattern
stands for**, among those that read at most 100000 letters. -/
theorem longestMatchAt_isLongest (h : compile pattern flags = .ok r) :
    ∃ t e, Tree.parse pattern = .ok t ∧ t.Denotes e ∧ (∀ e', t.Denotes e' → e' = e) ∧
      ∀ buffer offset,
        (buffer.size < offset → r.longestMatchAt buffer offset = none) ∧
        (offset ≤ buffer.size →
          IsLongest (fun length => ∃ n ≤ 100000,
            e.Derives buffer ⟨0, offset⟩ ⟨n, offset + length⟩)
            (r.longestMatchAt buffer offset)) := by
  obtain ⟨t, e, ht, he, hrange, hwords⟩ := exists_of_compile h
  refine ⟨t, e, ht, he, fun _ he' => he'.unique he, fun buffer offset => ⟨fun hlt => ?_, ?_⟩⟩
  · exact congrArg Attempt.length (Automaton.longestMatch_of_lt hlt)
  · intro hle
    exact (Automaton.isLongest_longestMatch hrange (by decide) hle).congr fun _ =>
      Automaton.matchesWithin_iff_derives hwords

/-- The pattern `a*` on the buffer `aab`. -/
theorem longestMatchAt_isLongest_star :
    ∃ r t e, compile [0x61, 0x2A] {} = .ok r ∧ Tree.parse [0x61, 0x2A] = .ok t ∧ t.Denotes e ∧
      r.longestMatchAt #[0x61, 0x61, 0x62] 0 = some 2 ∧
      IsLongest (fun length => ∃ n ≤ 100000,
        e.Derives #[0x61, 0x61, 0x62] ⟨0, 0⟩ ⟨n, 0 + length⟩)
        (r.longestMatchAt #[0x61, 0x61, 0x62] 0) := by
  have h : compile [0x61, 0x2A] {} = .ok ⟨⟨#[[⟨1, .byte 0x61⟩], [⟨1, .byte 0x61⟩],
      [⟨1, .byte 0x61⟩], []], ⟨#[13]⟩, ⟨#[14]⟩, #[]⟩, {}⟩ := by cbv
  obtain ⟨t, e, ht, he, -, hlongest⟩ := longestMatchAt_isLongest h
  exact ⟨_, t, e, h, ht, he, by cbv, (hlongest #[0x61, 0x61, 0x62] 0).2 (by decide)⟩

end Regex

end ByteRegex
