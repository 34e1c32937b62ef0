import ByteRegex.Proofs.Scan.Run
import ByteRegex.Regex

/-!
# Scanning a whole buffer

A buffer that is scanned as one unit is its own place of reference, so the scan reports exactly the
leftmost-longest matches of the buffer (`Scan.leftmostLongest_steps`), one with each call of `next`.
-/

namespace ByteRegex

variable {a : Automaton} {buffer : Buffer}

/-- The matches in a buffer that is scanned as one unit. -/
def Automaton.matchesIn (a : Automaton) (buffer : Buffer) : List Match :=
  (Scan.new a buffer true false).allMatches.toList

theorem Automaton.matchesIn_eq (a : Automaton) (buffer : Buffer) :
    a.matchesIn buffer = (a.foundsFrom buffer 0).map (ScanUnit.whole buffer).report := by
  rw [Automaton.matchesIn, Scan.allMatches_eq Scan.ready_new]
  exact List.append_nil _

theorem Automaton.map_toFound_matchesIn (a : Automaton) (buffer : Buffer) :
    (a.matchesIn buffer).map Match.toFound = a.foundsFrom buffer 0 := by
  rw [Automaton.matchesIn_eq, List.map_map]
  refine (List.map_congr_left fun f _ => ?_).trans (List.map_id _)
  simp [Match.toFound, ScanUnit.report, ScanUnit.whole]

theorem Automaton.leftmostLongest_matchesIn (a : Automaton) (buffer : Buffer) :
    LeftmostLongest (a.lengthAt buffer) buffer.size ((a.matchesIn buffer).map Match.toFound) := by
  rw [Automaton.map_toFound_matchesIn]
  exact leftmostLongest_foundsFrom fun _ _ h => Automaton.longestMatch_le h

/-- A scan of a whole buffer reports its matches, or the first of them. -/
theorem Scan.remaining_new_whole (global : Bool) :
    (Scan.new a buffer global false).remaining a =
      if global then a.matchesIn buffer else (a.matchesIn buffer).take 1 := by
  have hunits : ScanUnit.remainingIn a [.whole buffer] = a.matchesIn buffer := by
    rw [Automaton.matchesIn_eq]
    exact List.append_nil _
  cases global
  · exact congrArg (List.take 1) hunits
  · exact hunits

namespace Regex

variable {r : Regex}

/-- The first match is the same whether or not a scan goes on after it. -/
theorem find?_eq_head? (hr : r.flags.multiline = false) :
    r.find? buffer = (r.automaton.matchesIn buffer).head? := by
  rw [find?, scan, hr, (Scan.next_spec Scan.ready_new).1, Scan.remaining_new_whole]
  cases r.flags.global
  · exact List.head?_take.trans (if_neg Nat.one_ne_zero)
  · rfl

theorem map_toFound_find? (hr : r.flags.multiline = false) :
    (r.find? buffer).map Match.toFound =
      ((r.automaton.matchesIn buffer).map Match.toFound).head? := by
  rw [find?_eq_head? hr, List.head?_map]

end Regex

/-- **Scanning a buffer as one unit finds its leftmost-longest matches.** Each call of `next` yields
the next one, and none after the last; a scan that is not global yields the first one only. So there
is a match if some offset has one, and the first match is the one at the least such offset. -/
theorem Scan.leftmostLongest_steps (a : Automaton) (buffer : Buffer) :
    LeftmostLongest (a.lengthAt buffer) buffer.size ((a.matchesIn buffer).map Match.toFound) ∧
      (∀ n, ((Scan.new a buffer true false).steps n).map (·.found) =
        (List.range n).map ((a.matchesIn buffer)[·]?)) ∧
      (∀ n, ((Scan.new a buffer false false).steps n).map (·.found) =
        (List.range n).map (((a.matchesIn buffer).take 1)[·]?)) ∧
      (∀ s : Scan, s.next.1.found = none →
        ∀ n, (s.next.2.steps n).map (·.found) = List.replicate n none) ∧
      ∀ r : Regex, r.automaton = a → r.flags.multiline = false →
        (r.isMatch buffer = true ↔ ∃ p ≤ buffer.size, (a.lengthAt buffer p).isSome) ∧
          r.find? buffer = (a.matchesIn buffer).head? ∧
          ∀ m, r.find? buffer = some m →
            IsLeast {p | p ≤ buffer.size ∧ (a.lengthAt buffer p).isSome} m.offset ∧
              a.lengthAt buffer m.offset = some m.length := by
  have hmatches := a.leftmostLongest_matchesIn buffer
  refine ⟨hmatches, fun n => ?_, fun n => ?_,
    fun s hs n => Scan.found_steps_of_next_eq_none hs n, ?_⟩
  · rw [Scan.found_steps Scan.ready_new, Scan.remaining_new_whole]
    rfl
  · rw [Scan.found_steps Scan.ready_new, Scan.remaining_new_whole]
    rfl
  · rintro r rfl hr
    have hfind : (r.find? buffer).map Match.toFound = _ := Regex.map_toFound_find? hr
    refine ⟨?_, Regex.find?_eq_head? hr, ?_⟩
    · rw [← hmatches.isSome_head?_iff, ← hfind, Option.isSome_map, Regex.isMatch]
    · intro m hm
      rw [hm] at hfind
      exact ⟨hmatches.isLeast_of_head? hfind.symm,
        hmatches.longest_eq _ (List.mem_of_head? hfind.symm)⟩

/-- The pattern `a*` on the buffer `baa`: nothing, both letters, and nothing at the end. -/
theorem Scan.leftmostLongest_steps_star :
    ∃ r : Regex, r.flags.multiline = false ∧
      (r.automaton.matchesIn #[0x62, 0x61, 0x61]).map Match.toFound = [⟨0, 0⟩, ⟨1, 2⟩, ⟨3, 0⟩] ∧
      LeftmostLongest (r.automaton.lengthAt #[0x62, 0x61, 0x61]) 3 [⟨0, 0⟩, ⟨1, 2⟩, ⟨3, 0⟩] ∧
      r.find? #[0x62, 0x61, 0x61] = some ⟨0, 0, 1, 1⟩ ∧
      IsLeast {p | p ≤ 3 ∧ (r.automaton.lengthAt #[0x62, 0x61, 0x61] p).isSome} 0 := by
  obtain ⟨a, ha⟩ : ∃ a : Automaton, a = ⟨#[[⟨1, .byte 0x61⟩], [⟨1, .byte 0x61⟩],
      [⟨1, .byte 0x61⟩], []], ⟨#[13]⟩, ⟨#[14]⟩, #[]⟩ := ⟨_, rfl⟩
  have hmatches : (a.matchesIn #[0x62, 0x61, 0x61]).map Match.toFound =
      [⟨0, 0⟩, ⟨1, 2⟩, ⟨3, 0⟩] := by
    rw [Automaton.map_toFound_matchesIn, ha]
    cbv
  have hfind : (⟨a, {}⟩ : Regex).find? #[0x62, 0x61, 0x61] = some ⟨0, 0, 1, 1⟩ := by
    rw [ha]
    cbv
  obtain ⟨hleftmost, -, -, -, hregex⟩ := leftmostLongest_steps a #[0x62, 0x61, 0x61]
  rw [hmatches] at hleftmost
  obtain ⟨-, -, hleast⟩ := hregex ⟨a, {}⟩ rfl rfl
  exact ⟨⟨a, {}⟩, rfl, hmatches, hleftmost, hfind, (hleast _ hfind).1⟩

end ByteRegex
