import ByteRegex.Proofs.Buffer.Cursor
import ByteRegex.Proofs.Buffer.Lines
import Mathlib.Order.Bounds.Basic

/-!
# The line and column of an offset

An offset of a buffer has one line and one column (`Buffer.Locates`): newlines before it are counted
for the line, and bytes since the last of them for the column. A cursor that came from the start of
the buffer knows them (`Cursor.locates_advance`), and so does a line that was read from it, for each
offset in that line (`Lines.locates_of_mem`).
-/

namespace ByteRegex

/-- The start of the line of an offset: the last place up to the offset that is the start of the
buffer or just past a newline. -/
def Buffer.IsLineStart (buffer : Buffer) (offset start : Nat) : Prop :=
  IsGreatest {i | i ≤ offset ∧ (i = 0 ∨ buffer[i - 1]? = some Byte.newline)} start

/-- An offset lies on a line and in a column, both counted from 1. -/
structure Buffer.Locates (buffer : Buffer) (offset line column : Nat) : Prop where
  line_eq : line = 1 + (buffer.toList.take offset).count Byte.newline
  column_eq : ∃ start, buffer.IsLineStart offset start ∧ column = 1 + (offset - start)

variable {p buffer : Buffer} {pos offset n i line line' column column' : Nat} {l : Line}
  {ls rest : Lines}

/-! ## Cursors -/

namespace Buffer

/-- An offset has one line and one column. -/
theorem Locates.unique (h : buffer.Locates offset line column)
    (h' : buffer.Locates offset line' column') : line = line' ∧ column = column' := by
  obtain ⟨start, hstart, rfl⟩ := h.column_eq
  obtain ⟨start', hstart', rfl⟩ := h'.column_eq
  rw [IsGreatest.unique hstart hstart']
  exact ⟨h.line_eq.trans h'.line_eq.symm, rfl⟩

/-- The byte before the last line start is a newline, and there is none behind it. -/
theorem newline_of_lastLineStart? {start : Nat} (h : lastLineStart? p = some start) :
    p[start - 1]? = some Byte.newline ∧ ∀ i, start ≤ i → p[i]? ≠ some Byte.newline := by
  obtain ⟨k, hk, rfl⟩ := Option.map_eq_some_iff.mp h
  obtain ⟨hlt, hget, hfirst⟩ := List.idxOf?_eq_some_iff.mp hk
  have hsize : k < p.size := by simpa using hlt
  rw [List.getElem_reverse] at hget
  refine ⟨?_, ?_⟩
  · rw [show p.size - k - 1 = p.size - 1 - k by omega, Array.getElem?_eq_getElem (by omega)]
    simpa using hget
  · intro i hi hnewline
    obtain ⟨hlti, hnewline⟩ := Array.getElem?_eq_some_iff.mp hnewline
    refine hfirst (p.size - 1 - i) (by omega) ?_
    have hplace : p.size - 1 - (p.size - 1 - i) = i := by omega
    simpa [List.getElem_reverse, hplace] using hnewline

theorem getElem?_extract_zero :
    (buffer.extract 0 offset)[i]? = if i < offset then buffer[i]? else none := by
  rw [Array.getElem?_extract, Nat.sub_zero, Nat.zero_add]
  by_cases hi : i < offset
  · by_cases hsize : i < buffer.size
    · rw [if_pos (Nat.lt_min.mpr ⟨hi, hsize⟩), if_pos hi]
    · rw [if_neg (by omega), if_pos hi, Array.getElem?_eq_none (Nat.le_of_not_lt hsize)]
  · rw [if_neg (by omega), if_neg hi]

/-- The line starts where the last newline before the offset ends, or with the buffer. -/
theorem isLineStart_lastLineStart? (buffer : Buffer) (offset : Nat) :
    buffer.IsLineStart offset ((lastLineStart? (buffer.extract 0 offset)).getD 0) := by
  cases hstart : lastLineStart? (buffer.extract 0 offset) with
  | none =>
    have hmem : Byte.newline ∉ buffer.extract 0 offset := lastLineStart?_eq_none_iff.mp hstart
    refine ⟨⟨Nat.zero_le _, .inl rfl⟩, ?_⟩
    rintro i ⟨hi, rfl | hnewline⟩
    · exact Nat.le_refl _
    · refine Nat.le_of_not_lt fun hpos => hmem ?_
      rw [Option.getD_none] at hpos
      refine Array.mem_of_getElem? (i := i - 1) ?_
      rw [getElem?_extract_zero, if_pos (by omega), hnewline]
  | some start =>
    obtain ⟨hpos, hsize⟩ := lastLineStart?_bounds hstart
    obtain ⟨hnewline, hlast⟩ := newline_of_lastLineStart? hstart
    rw [Array.size_extract] at hsize
    rw [getElem?_extract_zero, if_pos (by omega)] at hnewline
    refine ⟨⟨?_, .inr hnewline⟩, ?_⟩
    · rw [Option.getD_some]
      omega
    · rintro i ⟨hi, rfl | hnewline⟩
      · exact Nat.zero_le _
      · refine Nat.le_of_not_lt fun hlt => hlast (i - 1) ?_ ?_
        · rw [Option.getD_some] at hlt
          omega
        · rw [getElem?_extract_zero, if_pos (by omega), hnewline]

end Buffer

/-- **A cursor that comes from the start of a buffer knows its line and column**, up to the end of
the buffer. -/
theorem Cursor.locates_advance (h : offset ≤ buffer.size) :
    buffer.Locates offset ((Cursor.start 1).advance buffer offset).line
      ((Cursor.start 1).advance buffer offset).column := by
  rw [advance_of_le (by simpa [start] using h)]
  constructor
  · simp only [start, Buffer.newlineCount, Nat.zero_add]
    rw [← Array.count_toList, Array.toList_extract, List.extract_eq_take_drop]
    rfl
  · refine ⟨_, Buffer.isLineStart_lastLineStart? buffer offset, ?_⟩
    simp only [start, Nat.zero_add]
    cases Buffer.lastLineStart? (buffer.extract 0 offset) with
    | none => rfl
    | some start => exact Nat.add_comm _ _

/-! ## Lines -/

theorem Buffer.getElem?_newlineFrom? (h : newlineFrom? buffer pos = some n) :
    buffer[n]? = some Byte.newline := by
  fun_induction newlineFrom? buffer pos with
  | case1 pos hlt hnewline =>
    obtain rfl := Option.some.inj h
    rw [Array.getElem?_eq_getElem hlt, hnewline]
  | case2 pos _ _ ih => exact ih h
  | case3 => cases h

namespace Lines

/-- A line begins where reading has come to. It ends with the buffer, or in a newline from which
reading goes on unless the buffer ends there. -/
theorem pos_of_next? (h : ls.next? = some (l, rest)) (hpos : ls.pos ≤ ls.buffer.size) :
    l.offset = ls.pos ∧ (rest.done = true ∧ l.offset + l.bytes.size = ls.buffer.size ∨
      rest.pos = l.offset + l.bytes.size + 1 ∧ rest.done = (rest.pos == ls.buffer.size) ∧
        ls.buffer[l.offset + l.bytes.size]? = some Byte.newline) := by
  unfold next? at h
  split at h
  · cases h
  · split at h
    · next n hn =>
      have hbounds := Buffer.newlineFrom?_bounds hn
      cases h
      have hsize : ls.pos + (ls.buffer.extract ls.pos n).size = n := by
        rw [Array.size_extract]
        omega
      refine ⟨rfl, .inr ⟨?_, rfl, ?_⟩⟩
      · exact congrArg (· + 1) hsize.symm
      · dsimp only
        rw [hsize]
        exact Buffer.getElem?_newlineFrom? hn
    · cases h
      refine ⟨rfl, .inl ⟨rfl, ?_⟩⟩
      dsimp only
      rw [Array.size_extract]
      omega

theorem toList_of_next? (h : ls.next? = some (l, rest)) : ls.toList = l :: rest.toList := by
  rw [toList]
  split
  · next h' =>
    obtain ⟨rfl, rfl⟩ := Prod.mk.inj (Option.some.inj (h.symm.trans h'))
    rfl
  · next h' => cases h.symm.trans h'

theorem toList_of_done (h : ls.done = true) : ls.toList = [] := by
  rw [toList, next?, if_pos h]

end Lines

/-- The newlines up to a place of a line are those before the line. -/
theorem Line.Within.count_take (h : l.Within buffer) (hn : n ≤ l.bytes.size) :
    (buffer.toList.take (l.offset + n)).count Byte.newline =
      (buffer.toList.take l.offset).count Byte.newline := by
  have hbytes : ((buffer.toList.drop l.offset).take n).Sublist l.bytes.toList := by
    rw [h.bytes_eq, Array.toList_extract, List.extract_eq_take_drop, Nat.add_sub_cancel_left]
    exact List.take_sublist_take_left hn
  have hnone : ((buffer.toList.drop l.offset).take n).count Byte.newline = 0 :=
    List.count_eq_zero.mpr fun hmem => h.newline_not_mem (Array.mem_toList_iff.mp (hbytes.mem hmem))
  rw [List.take_add, List.count_append, hnone, Nat.add_zero]

/-- Each place of a line is on the line that starts where it does. -/
theorem Line.Within.isLineStart (h : l.Within buffer)
    (hstart : l.offset = 0 ∨ buffer[l.offset - 1]? = some Byte.newline) (hn : n ≤ l.bytes.size) :
    buffer.IsLineStart (l.offset + n) l.offset := by
  refine ⟨⟨Nat.le_add_right .., hstart⟩, ?_⟩
  rintro i ⟨hi, rfl | hnewline⟩
  · exact Nat.zero_le _
  · refine Nat.le_of_not_lt fun hlt => h.newline_not_mem ?_
    have hplace : l.offset + (i - 1 - l.offset) = i - 1 := by omega
    rw [h.bytes_eq]
    refine Array.mem_of_getElem? (i := i - 1 - l.offset) ?_
    rw [Array.getElem?_extract, if_pos ?_, hplace, hnewline]
    have := h.finish_le
    omega

namespace Lines

/-- Lines are numbered by the newlines before them, and begin where lines start. -/
theorem start_of_mem {first k : Nat} (hpos : ls.pos ≤ ls.buffer.size)
    (hstart : ls.pos = 0 ∨ ls.buffer[ls.pos - 1]? = some Byte.newline)
    (hfirst : first = 1 + (ls.buffer.toList.take ls.pos).count Byte.newline)
    (hl : (l, k) ∈ ls.toList.zipIdx first) :
    k = 1 + (ls.buffer.toList.take l.offset).count Byte.newline ∧
      (l.offset = 0 ∨ ls.buffer[l.offset - 1]? = some Byte.newline) := by
  fun_induction toList ls generalizing first with
  | case1 ls line rest hnext ih =>
    obtain ⟨hwithin, hbuffer, hrest⟩ := within_of_next? hnext hpos
    obtain ⟨hoffset, hmore⟩ := pos_of_next? hnext hpos
    rw [List.zipIdx_cons] at hl
    rcases List.mem_cons.mp hl with heq | hl
    · obtain ⟨rfl, rfl⟩ := Prod.mk.inj heq
      rw [hoffset]
      exact ⟨hfirst, hstart⟩
    · rcases hmore with ⟨hdone, -⟩ | ⟨hnextpos, -, hnewline⟩
      · -- after the last line there is none
        rw [toList_of_done hdone] at hl
        cases hl
      · rw [← hbuffer] at hnewline ⊢
        refine ih hrest (.inr ?_) ?_ hl
        · rwa [hnextpos, Nat.add_sub_cancel]
        · have hlast : rest.buffer.toList[line.offset + line.bytes.size]? = some Byte.newline := by
            rwa [Array.getElem?_toList]
          rw [hnextpos, List.take_add_one, List.count_append, hlast, hbuffer,
            hwithin.count_take (Nat.le_refl _), hfirst, hoffset]
          rfl
  | case2 => cases hl

/-- **A line that was read from a buffer knows the line and column of its places.** -/
theorem locates_of_mem {k : Nat} (hl : (l, k) ∈ (ofBuffer buffer).toList.zipIdx 1)
    (hn : n ≤ l.bytes.size) : buffer.Locates (l.offset + n) k (n + 1) := by
  have hwithin := within_of_mem_ofBuffer (List.fst_mem_of_mem_zipIdx hl)
  obtain ⟨hnumber, hstart⟩ := start_of_mem (Nat.zero_le _) (.inl rfl) rfl hl
  refine ⟨?_, l.offset, hwithin.isLineStart hstart hn, ?_⟩
  · rw [hwithin.count_take hn]
    exact hnumber
  · rw [Nat.add_sub_cancel_left, Nat.add_comm]

end Lines

end ByteRegex
