import ByteRegex.Proofs.Buffer.Place
import ByteRegex.Proofs.Scan.Multiline

/-!
# Where matches are reported

The line and column of a match are those of its offset in the buffer (`Scan.locates_found`). They
are kept differently when a buffer is scanned as one unit, by a cursor that jumps from match to
match, and when it is scanned line by line, by a count of the lines; what they say is the same.
-/

namespace ByteRegex

variable {a : Automaton} {buffer : Buffer} {m : Match}

/-- The line and column of a match are those of its offset. -/
def Match.PlacedIn (m : Match) (buffer : Buffer) : Prop := buffer.Locates m.offset m.line m.column

theorem Automaton.placedIn_of_mem_matchesIn (hm : m ∈ a.matchesIn buffer) : m.PlacedIn buffer := by
  rw [matchesIn_eq] at hm
  obtain ⟨f, hf, rfl⟩ := List.mem_map.mp hm
  have hplace := Cursor.locates_advance (bounds_of_mem_foundsFrom hf).2.1
  simpa [Match.PlacedIn, ScanUnit.report, ScanUnit.whole, Cursor.start] using hplace

theorem Automaton.placedIn_of_mem_matchesInLines
    (hm : m ∈ a.matchesInLines 1 (Lines.ofBuffer buffer).toList) : m.PlacedIn buffer := by
  obtain ⟨⟨l, k⟩, hl, hm⟩ := List.mem_flatMap.mp hm
  obtain ⟨m', hm', rfl⟩ := List.mem_map.mp hm
  have hfinish : m'.offset + m'.length ≤ l.bytes.size :=
    (a.leftmostLongest_matchesIn l.bytes).finish_le _ (List.mem_map_of_mem hm')
  exact Lines.locates_of_mem hl (Nat.le_of_add_right_le hfinish)

namespace Scan

theorem placedIn_of_mem_remaining {global multiline : Bool}
    (hm : m ∈ (new a buffer global multiline).remaining a) : m.PlacedIn buffer := by
  -- a scan that stops at its first match has no other matches than one that goes on
  cases multiline with
  | false =>
    rw [remaining_new_whole] at hm
    cases global with
    | false => exact Automaton.placedIn_of_mem_matchesIn (List.mem_of_mem_take hm)
    | true => exact Automaton.placedIn_of_mem_matchesIn hm
  | true =>
    rw [remaining_new_lines] at hm
    cases global with
    | false => exact Automaton.placedIn_of_mem_matchesInLines (List.mem_of_mem_take hm)
    | true => exact Automaton.placedIn_of_mem_matchesInLines hm

/-- **A match is reported with the line and column of its offset**, whether the buffer is scanned as
one unit or line by line, whether or not the scan goes on after the first match, and whatever calls
of `next` came before. -/
theorem locates_found (a : Automaton) (buffer : Buffer) (global multiline : Bool) :
    (∀ m ∈ (new a buffer global multiline).allMatches, buffer.Locates m.offset m.line m.column) ∧
      ∀ n, ∀ report ∈ (new a buffer global multiline).steps n, ∀ m, report.found = some m →
        buffer.Locates m.offset m.line m.column := by
  refine ⟨fun m hm => ?_, fun n report hreport m hfound => ?_⟩
  · rw [← Array.mem_toList_iff, allMatches_eq ready_new] at hm
    exact placedIn_of_mem_remaining hm
  · have hmem : some m ∈ ((new a buffer global multiline).steps n).map (·.found) :=
      hfound ▸ List.mem_map_of_mem hreport
    rw [found_steps ready_new] at hmem
    obtain ⟨i, -, hi⟩ := List.mem_map.mp hmem
    exact placedIn_of_mem_remaining (List.mem_of_getElem? hi)

/-- The pattern `b` on the lines `a` and `ab`: its match is on the second line, in the second
column. -/
theorem locates_found_second_line :
    ∃ a : Automaton, ∃ report ∈ (new a #[0x61, 0x0A, 0x61, 0x62] true false).steps 1,
      report.found = some ⟨3, 1, 2, 2⟩ ∧ Buffer.Locates #[0x61, 0x0A, 0x61, 0x62] 3 2 2 := by
  have hsteps : ((new ⟨#[[⟨1, .byte 0x62⟩], []], ⟨#[1]⟩, ⟨#[2]⟩, #[]⟩ #[0x61, 0x0A, 0x61, 0x62] true
      false).steps 1).map (·.found) = [some ⟨3, 1, 2, 2⟩] := by cbv
  obtain ⟨report, hreport, hfound⟩ := List.mem_map.mp (hsteps ▸ List.mem_singleton_self _)
  exact ⟨_, report, hreport, hfound, (locates_found _ _ true false).2 1 report hreport _ hfound⟩

end Scan

end ByteRegex
