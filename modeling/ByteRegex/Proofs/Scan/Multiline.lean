import ByteRegex.Proofs.Buffer.Lines
import ByteRegex.Proofs.Scan.Whole

/-!
# Scanning line by line

In multiline scanning each line is a buffer of its own. The matches reported are those of the lines,
one line after another, moved to where their line is (`Scan.multiline_eq`). So a match lies within
one line, and its length depends on the bytes of that line alone.
-/

namespace ByteRegex

variable {a : Automaton} {buffer : Buffer} {l : Line} {m : Match} {number : Nat}

/-- A match of a line, with its place in the whole buffer. -/
def Match.inLine (l : Line) (number : Nat) (m : Match) : Match :=
  ⟨l.offset + m.offset, m.length, number, m.offset + 1⟩

/-- The matches of lines, the first of which has the given number. -/
def Automaton.matchesInLines (a : Automaton) (number : Nat) (ls : List Line) : List Match :=
  (ls.zipIdx number).flatMap fun p => (a.matchesIn p.1.bytes).map (Match.inLine p.1 p.2)

/-- A line as a unit has the matches of its bytes: without newlines, a cursor stays in its line. -/
theorem ScanUnit.remaining_line (hl : Byte.newline ∉ l.bytes) :
    remaining a ⟨l.offset, l.bytes, .start number⟩ =
      (a.matchesIn l.bytes).map (Match.inLine l number) := by
  rw [Automaton.matchesIn_eq, List.map_map]
  refine List.map_congr_left fun f hf => ?_
  have hhere : Cursor.advance ⟨0, number, 1⟩ l.bytes f.offset =
      ⟨f.offset, number, 1 + f.offset⟩ := by
    rw [Cursor.advance_of_not_mem hl (by simpa using (bounds_of_mem_foundsFrom hf).2.1),
      Nat.zero_add]
  simp [report, whole, Match.inLine, Cursor.start, hhere, Nat.add_comm]

theorem ScanUnit.remainingIn_ofLines {ls : List Line} (hls : ∀ l ∈ ls, Byte.newline ∉ l.bytes) :
    remainingIn a (ofLines number ls) = a.matchesInLines number ls := by
  induction ls generalizing number with
  | nil => rfl
  | cons l ls ih =>
    obtain ⟨hl, hls⟩ := List.forall_mem_cons.mp hls
    rw [ofLines, remainingIn, List.flatMap_cons, remaining_line hl, ← remainingIn, ih hls]
    rfl

/-- A scan line by line reports the matches of the lines, or the first of them. -/
theorem Scan.remaining_new_lines (global : Bool) :
    (Scan.new a buffer global true).remaining a =
      if global then a.matchesInLines 1 (Lines.ofBuffer buffer).toList
      else (a.matchesInLines 1 (Lines.ofBuffer buffer).toList).take 1 := by
  have hunits : ScanUnit.remainingIn a (ScanUnit.ofLines 1 (Lines.ofBuffer buffer).toList) = _ :=
    ScanUnit.remainingIn_ofLines fun l hl => (Lines.within_of_mem_ofBuffer hl).newline_not_mem
  cases global
  · exact congrArg (List.take 1) hunits
  · exact hunits

/-- A match of the lines lies in one of them and is a longest match of that line alone. -/
theorem Automaton.exists_line_of_mem {ls : List Line} (hm : m ∈ a.matchesInLines number ls) :
    ∃ l ∈ ls, l.offset ≤ m.offset ∧ m.finish ≤ l.offset + l.bytes.size ∧
      a.lengthAt l.bytes (m.offset - l.offset) = some m.length := by
  obtain ⟨⟨l, k⟩, hl, hm⟩ := List.mem_flatMap.mp hm
  obtain ⟨m', hm', rfl⟩ := List.mem_map.mp hm
  have hmatches := a.leftmostLongest_matchesIn l.bytes
  have hf : m'.toFound ∈ (a.matchesIn l.bytes).map Match.toFound := List.mem_map_of_mem hm'
  have hfinish : m'.offset + m'.length ≤ l.bytes.size := hmatches.finish_le _ hf
  refine ⟨l, List.fst_mem_of_mem_zipIdx hl, Nat.le_add_right .., ?_, ?_⟩
  · rw [Match.finish, Match.inLine, Nat.add_assoc]
    exact Nat.add_le_add_left hfinish _
  · rw [Match.inLine, Nat.add_sub_cancel_left]
    exact hmatches.longest_eq _ hf

/-- There is no newline between two places of a line. -/
theorem Line.Within.newline_not_mem_extract (h : l.Within buffer) {i j : Nat} (hi : l.offset ≤ i)
    (hj : j ≤ l.offset + l.bytes.size) : Byte.newline ∉ buffer.extract i j := by
  intro hmem
  obtain ⟨k, hk, hget⟩ := Array.mem_extract_iff_getElem.mp hmem
  have hplace : l.offset + (i + k - l.offset) = i + k := by omega
  have hfinish := h.finish_le
  refine h.newline_not_mem
    (h.bytes_eq ▸ Array.mem_extract_iff_getElem.mpr ⟨i + k - l.offset, ?_, ?_⟩)
  · omega
  · simp only [hplace]
    exact hget

/-- **Scanning line by line is scanning each line as a buffer of its own.** The matches are those of
the lines in order, each with the offset, the line number and the column that it has in the whole
buffer; a scan that is not global yields the first one only. So no match has a newline in it, and
each is the longest one at its place in the bytes of one line, whatever the other lines hold. -/
theorem Scan.multiline_eq (a : Automaton) (buffer : Buffer) :
    (Scan.new a buffer true true).allMatches.toList =
        a.matchesInLines 1 (Lines.ofBuffer buffer).toList ∧
      (Scan.new a buffer false true).allMatches.toList =
        (a.matchesInLines 1 (Lines.ofBuffer buffer).toList).take 1 ∧
      (∀ n, ((Scan.new a buffer true true).steps n).map (·.found) =
        (List.range n).map ((a.matchesInLines 1 (Lines.ofBuffer buffer).toList)[·]?)) ∧
      (∀ n, ((Scan.new a buffer false true).steps n).map (·.found) =
        (List.range n).map (((a.matchesInLines 1 (Lines.ofBuffer buffer).toList).take 1)[·]?)) ∧
      ∀ m ∈ (Scan.new a buffer true true).allMatches.toList,
        Byte.newline ∉ buffer.extract m.offset m.finish ∧
          ∃ l ∈ (Lines.ofBuffer buffer).toList, l.offset ≤ m.offset ∧
            m.finish ≤ l.offset + l.bytes.size ∧
            a.lengthAt l.bytes (m.offset - l.offset) = some m.length := by
  have hall : (Scan.new a buffer true true).allMatches.toList =
      a.matchesInLines 1 (Lines.ofBuffer buffer).toList :=
    (Scan.allMatches_eq Scan.ready_new).trans (Scan.remaining_new_lines true)
  have hfirst : (Scan.new a buffer false true).allMatches.toList =
      (a.matchesInLines 1 (Lines.ofBuffer buffer).toList).take 1 :=
    (Scan.allMatches_eq Scan.ready_new).trans (Scan.remaining_new_lines false)
  refine ⟨hall, hfirst, fun n => ?_, fun n => ?_, fun m hm => ?_⟩
  · rw [Scan.found_steps Scan.ready_new, Scan.remaining_new_lines]
    rfl
  · rw [Scan.found_steps Scan.ready_new, Scan.remaining_new_lines]
    rfl
  · rw [hall] at hm
    obtain ⟨l, hl, hstart, hfinish, hlongest⟩ := Automaton.exists_line_of_mem hm
    have hwithin := Lines.within_of_mem_ofBuffer hl
    exact ⟨hwithin.newline_not_mem_extract hstart hfinish, l, hl, hstart, hfinish, hlongest⟩

end ByteRegex
