import ByteRegex.Proofs.Pattern.Literal
import ByteRegex.Proofs.Regex
import ByteRegex.Proofs.Scan.Occurrences

/-!
# Escaped texts match literally

The pattern of an escaped text compiles, because its fragment has one state more than the text has
bytes. Its matches are the occurrences of the text (`Regex.ofString_escape`).
-/

namespace ByteRegex

/-- A text occurs in a buffer at an offset. -/
def OccursAt (text : List Byte) (buffer : Buffer) (offset : Nat) : Prop :=
  text <+: buffer.toList.drop offset

instance (text : List Byte) (buffer : Buffer) (offset : Nat) :
    Decidable (OccursAt text buffer offset) :=
  inferInstanceAs (Decidable (text <+: _))

variable {text pattern : List Byte} {buffer : Buffer} {offset : Nat}

/-- A text that is not empty does not occur at the end. -/
theorem OccursAt.lt_size (h : OccursAt text buffer offset) (hne : text ≠ []) :
    offset < buffer.size := by
  have hlength : text.length ≤ buffer.size - offset := by simpa using h.length_le
  have hpos := List.length_pos_iff.mpr hne
  omega

namespace Regex

variable {flags : Flags} {r : Regex}

/-- A pattern that emits the bytes of a text describes the text. -/
structure IsLiteral (pattern text : List Byte) : Prop where
  emits : Lexer.Emits pattern (text.map .byte)
  pattern_le : pattern.length ≤ maxPatternLength
  text_lt : text.length < maxAutomatonStates

/-- The tree of a text denotes what is read where the text occurs. -/
theorem IsLiteral.exists_denotes (h : IsLiteral pattern text) :
    ∃ t e, Tree.parse pattern = .ok t ∧ t.Denotes e ∧
      (∀ buffer c d, e.Derives buffer c d ↔ OccursAt text buffer c.pos ∧
        d = ⟨c.letters + text.length, c.pos + text.length⟩) ∧
      ∀ cfg : Thompson.Settings, maxAutomatonStates ≤ cfg.budget →
        ∃ nfa, Nfa.ofTree cfg t = .ok nfa ∧ nfa.fragment.size ≤ maxAutomatonStates := by
  obtain ⟨hemits, hpattern, htext⟩ := h
  cases text with
  | nil =>
    obtain rfl := Lexer.eq_nil_of_run hemits
    refine ⟨.empty, .empty, rfl, rfl, ?_, fun _ _ => ⟨_, rfl, by decide⟩⟩
    intro buffer c d
    exact eq_comm.trans (and_iff_right List.nil_prefix).symm
  | cons b bs =>
    have hwrites : Writes .alternatives pattern (.bytes b bs) :=
      Writes.sequence ⟨_, hemits, TokenTree.derives_bytes b bs⟩
    obtain ⟨t, ht, hrepresents⟩ := hwrites.exists_parse_eq hpattern
    refine ⟨t, _, ht, hrepresents.denotes, fun _ _ _ => TokenTree.derives_bytes_iff, ?_⟩
    intro cfg hbudget
    obtain ⟨f, hf, -, hsize⟩ := TokenTree.exists_compile_bytes #[] b bs (Nat.le_trans htext hbudget)
    refine ⟨⟨f, #[]⟩, ?_, hsize ▸ htext⟩
    rw [Nfa.ofTree_eq_of_ofOrdered ((hwrites.parse_eq hpattern).symm.trans ht), hf]
    rfl

/-- A literal compiles, and matches where its text occurs. -/
theorem IsLiteral.exists_compile (h : IsLiteral pattern text) (flags : Flags) :
    ∃ r, compile pattern flags = .ok r ∧ r.flags = flags ∧
      ∀ buffer offset, offset ≤ buffer.size →
        r.longestMatchAt buffer offset =
          if OccursAt text buffer offset then some text.length else none := by
  obtain ⟨t, e, ht, he, hderives, hcompile⟩ := h.exists_denotes
  obtain ⟨nfa, hnfa, hsize⟩ := hcompile { fastUnion := !flags.noMerge }
    (show maxAutomatonStates ≤ maxFragmentStates by decide)
  have hreduce :=
    Nfa.reduce_eq_ok_iff.mpr ⟨Nat.le_trans (Reduction.size_ofFragment_le _) hsize, rfl⟩
  have hr := compile_eq_ok_iff.mpr ⟨t, nfa, _, ht, hnfa, hreduce, rfl⟩
  refine ⟨_, hr, rfl, ?_⟩
  intro buffer offset hoffset
  refine (isLongest_of_compile hr ht he hoffset).unique ?_
  have hlimit : text.length ≤ 100000 := Nat.le_trans (Nat.le_of_lt h.text_lt) (by decide)
  split
  · next hoccurs =>
    refine ⟨⟨text.length, hlimit, (hderives ..).mpr ⟨hoccurs, ?_⟩⟩, ?_⟩
    · rw [Nat.zero_add]
    · rintro length ⟨n, -, hlength⟩
      have heq := congrArg Progress.pos ((hderives ..).mp hlength).2
      exact Nat.le_of_eq (Nat.add_left_cancel heq)
  · next hoccurs =>
    rintro length ⟨n, -, hlength⟩
    exact hoccurs ((hderives ..).mp hlength).1

/-! ## Scans -/

section Scan

variable {r : Regex} (hne : text ≠ [])
  (hr : ∀ offset, offset ≤ buffer.size → r.longestMatchAt buffer offset =
    if OccursAt text buffer offset then some text.length else none)

include hne hr

theorem lengthAt_eq_of_literal (offset : Nat) :
    r.automaton.lengthAt buffer offset =
      if OccursAt text buffer offset then some text.length else none := by
  by_cases hoffset : offset ≤ buffer.size
  · exact hr offset hoffset
  · have hnot : ¬ OccursAt text buffer offset :=
      fun h => hoffset (Nat.le_of_lt (h.lt_size hne))
    rw [if_neg hnot]
    exact congrArg Attempt.length (Automaton.longestMatch_of_lt (Nat.not_le.mp hoffset))

/-- A scan of a whole buffer for a text reports its occurrences. -/
theorem leftToRight_of_literal :
    LeftToRight (OccursAt text buffer) text.length
        ((r.automaton.matchesIn buffer).map (·.offset)) ∧
      ∀ m ∈ r.automaton.matchesIn buffer, m.length = text.length := by
  have hlength := lengthAt_eq_of_literal hne hr
  have hsome : ∀ p l, r.automaton.lengthAt buffer p = some l →
      OccursAt text buffer p ∧ l = text.length := by
    intro p l h
    rw [hlength, Option.ite_none_right_eq_some, Option.some_inj] at h
    exact ⟨h.1, h.2.symm⟩
  have hoccurs : (fun p => r.automaton.lengthAt buffer p = some text.length) =
      OccursAt text buffer := by
    funext p
    exact propext ⟨fun h => (hsome p _ h).1, fun h => (hlength p).trans (if_pos h)⟩
  have hmatches := r.automaton.leftmostLongest_matchesIn buffer
  have hplaces := hmatches.leftToRight (List.length_pos_iff.mpr hne) (fun p l h => (hsome p l h).2)
    fun p h => Nat.le_of_lt ((hsome p _ h).1.lt_size hne)
  rw [hoccurs, List.map_map] at hplaces
  refine ⟨hplaces, ?_⟩
  intro m hm
  exact (hsome _ _ (hmatches.longest_eq _ (List.mem_map_of_mem hm))).2

end Scan

/-- **An escaped text matches literally.** Its pattern compiles. A match at an offset is the text
where it occurs, and there is none elsewhere. So the first match of a text that is not empty is its
first occurrence, and a global scan of a whole buffer reports its occurrences from left to right,
without overlaps. -/
theorem ofString_escape (t : String) (flags : Flags)
    (hescaped : (Escape.text t).utf8ByteSize ≤ maxPatternLength) (htext : t.utf8ByteSize ≤ 4095) :
    ∃ r, ofString (Escape.text t) flags = .ok r ∧
      (∀ buffer offset, offset ≤ buffer.size → r.longestMatchAt buffer offset =
        if OccursAt t.toUTF8.toList buffer offset then some t.utf8ByteSize else none) ∧
      (t ≠ "" → flags.multiline = false → ∀ buffer,
        (r.find? buffer = none ↔ ∀ p, ¬ OccursAt t.toUTF8.toList buffer p) ∧
        (∀ m, r.find? buffer = some m →
          IsLeast {p | OccursAt t.toUTF8.toList buffer p} m.offset ∧
            m.length = t.utf8ByteSize) ∧
        (flags.global = true →
          (∀ m ∈ r.allMatches buffer, m.length = t.utf8ByteSize) ∧
          ∀ places, LeftToRight (OccursAt t.toUTF8.toList buffer) t.utf8ByteSize places ↔
            places = (r.allMatches buffer).toList.map (·.offset))) := by
  have hlength := Text.length_toList_toUTF8 t
  have hliteral : IsLiteral (Escape.text t).toUTF8.toList t.toUTF8.toList :=
    ⟨Escape.emits_text t, (Text.length_toList_toUTF8 _).trans_le hescaped,
      Nat.lt_succ_of_le (hlength.trans_le htext)⟩
  obtain ⟨r, hcompile, rfl, hmatch⟩ := hliteral.exists_compile flags
  rw [← hlength]
  refine ⟨r, hcompile, hmatch, ?_⟩
  intro ht hmultiline buffer
  have hne : t.toUTF8.toList ≠ [] := by
    intro hnil
    rw [hnil] at hlength
    exact ht (String.utf8ByteSize_eq_zero_iff.mp hlength.symm)
  obtain ⟨hplaces, hlengths⟩ := leftToRight_of_literal hne (hmatch buffer)
  rw [find?_eq_head? hmultiline]
  refine ⟨?_, ?_, ?_⟩
  · rw [List.head?_eq_none_iff, ← hplaces.eq_nil_iff, List.map_eq_nil_iff]
  · intro m hm
    obtain ⟨rest, hrest⟩ := List.head?_eq_some_iff.mp hm
    rw [hrest] at hplaces hlengths
    exact ⟨hplaces.isLeast, hlengths m List.mem_cons_self⟩
  · intro hglobal
    have hall : (r.allMatches buffer).toList = r.automaton.matchesIn buffer := by
      rw [allMatches, scan, hglobal, hmultiline]
      rfl
    rw [hall]
    refine ⟨?_, fun places => ⟨fun h => h.unique hplaces, fun h => h ▸ hplaces⟩⟩
    intro m hm
    exact hlengths m (hall ▸ Array.mem_toList_iff.mpr hm)

/-- The text `a.`, in which the dot is a mark: `a.a.` has it twice, `ab` does not have it. -/
theorem ofString_escape_dot :
    ∃ r, ofString "a\\." ⟨true, false, false⟩ = .ok r ∧
      r.longestMatchAt #[0x61, 0x2E, 0x61, 0x2E] 2 = some 2 ∧
      r.longestMatchAt #[0x61, 0x62] 0 = none ∧ r.find? #[0x61, 0x62] = none ∧
      (r.allMatches #[0x61, 0x2E, 0x61, 0x2E]).toList.map (·.offset) = [0, 2] := by
  have hescaped : Escape.text "a." = "a\\." := by decide
  have hbytes : "a.".toUTF8.toList = [0x61, 0x2E] := by
    rw [Text.toList_toUTF8]
    decide
  obtain ⟨r, hr, hmatch, hscan⟩ :=
    ofString_escape "a." ⟨true, false, false⟩ (hescaped ▸ by decide) (by decide)
  rw [hbytes] at hmatch hscan
  rw [hescaped] at hr
  refine ⟨r, hr, hmatch _ 2 (by decide), hmatch _ 0 (by decide), ?_, ?_⟩
  · obtain ⟨hnone, -, -⟩ := hscan (by decide) rfl #[0x61, 0x62]
    refine hnone.mpr fun p hp => ?_
    have hall : ∀ p < 2, ¬ OccursAt [0x61, 0x2E] #[0x61, 0x62] p := by decide
    exact hall p (hp.lt_size (List.cons_ne_nil _ _)) hp
  · obtain ⟨-, -, hglobal⟩ := hscan (by decide) rfl #[0x61, 0x2E, 0x61, 0x2E]
    refine (((hglobal rfl).2 [0, 2]).mp ⟨by decide, by decide, fun p hp => ?_⟩).symm
    have hall : ∀ p < 4, OccursAt [0x61, 0x2E] #[0x61, 0x2E, 0x61, 0x2E] p →
        ∃ q ∈ [0, 2], q ≤ p ∧ p < q + 2 := by decide
    exact hall p (hp.lt_size (List.cons_ne_nil _ _)) hp

end Regex

end ByteRegex
