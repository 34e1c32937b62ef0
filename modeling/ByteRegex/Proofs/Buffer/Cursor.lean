import ByteRegex.Buffer.Cursor

/-!
# Where a cursor gets to

Two moves of a cursor within a buffer are one longer move (`Cursor.advance_advance`), so its line
and column depend on where it is and not on the stops on its way. Without newlines the line stays
and the column counts bytes (`Cursor.advance_of_not_mem`).
-/

namespace ByteRegex

variable {p q : Buffer}

/-! ## Newlines -/

namespace Buffer

theorem newlineCount_append : newlineCount (p ++ q) = newlineCount p + newlineCount q :=
  Array.count_append

theorem lastLineStart?_eq_none_iff : lastLineStart? p = none ↔ Byte.newline ∉ p := by
  rw [lastLineStart?, Option.map_eq_none_iff, List.idxOf?_eq_none_iff, List.mem_reverse,
    Array.mem_toList_iff]

/-- The last newline is that of the second part, if there is one. -/
theorem lastLineStart?_append :
    lastLineStart? (p ++ q) = ((lastLineStart? q).map (p.size + ·)).or (lastLineStart? p) := by
  unfold lastLineStart?
  rw [Array.toList_append, List.reverse_append, List.idxOf?, List.findIdx?_append, Option.map_or,
    Option.map_map, Option.map_map, Array.size_append, List.length_reverse, Array.length_toList]
  congr 1
  · cases hq : q.toList.reverse.idxOf? Byte.newline with
    | none => rw [← List.idxOf?, hq]; rfl
    | some i =>
      obtain ⟨hi, -⟩ := List.idxOf?_eq_some_iff.mp hq
      rw [List.length_reverse, Array.length_toList] at hi
      rw [← List.idxOf?, hq]
      simp only [Option.map_some, Function.comp_apply, Option.some.injEq]
      omega
  · refine congrArg (Option.map · _) (funext fun i => ?_)
    simp only [Function.comp_apply]
    omega

theorem lastLineStart?_bounds {start : Nat} (h : lastLineStart? p = some start) :
    0 < start ∧ start ≤ p.size := by
  obtain ⟨i, hi, rfl⟩ := Option.map_eq_some_iff.mp h
  obtain ⟨hlt, -⟩ := List.idxOf?_eq_some_iff.mp hi
  rw [List.length_reverse, Array.length_toList] at hlt
  omega

end Buffer

/-! ## Moves -/

namespace Cursor

/-- A cursor that stays in its buffer counts the newlines that it passes, and the bytes behind the
last of them. -/
theorem advance_of_le {c : Cursor} {buffer : Buffer} {n : Nat} (h : c.pos + n ≤ buffer.size) :
    c.advance buffer n =
      { pos := c.pos + n
        line := c.line + Buffer.newlineCount (buffer.extract c.pos (c.pos + n))
        column := match Buffer.lastLineStart? (buffer.extract c.pos (c.pos + n)) with
          | some start => n - start + 1
          | none => c.column + n } := by
  unfold advance
  dsimp only
  rw [if_pos h]
  cases hstart : Buffer.lastLineStart? (buffer.extract c.pos (c.pos + n)) with
  | none =>
    have hcount : Buffer.newlineCount (buffer.extract c.pos (c.pos + n)) = 0 :=
      Array.count_eq_zero.mpr (Buffer.lastLineStart?_eq_none_iff.mp hstart)
    simp [hcount]
  | some start => simp [Nat.add_sub_add_left]

theorem advance_zero (c : Cursor) (buffer : Buffer) : c.advance buffer 0 = c := by
  by_cases h : c.pos ≤ buffer.size
  · have hnone : buffer.extract c.pos (c.pos + 0) = #[] :=
      Array.extract_empty_of_stop_le_start (Nat.le_refl _)
    rw [advance_of_le h, hnone]
    rfl
  · simp [advance, h]

/-- **Two moves within a buffer are one longer move.** -/
theorem advance_advance {c : Cursor} {buffer : Buffer} {m n : Nat}
    (h : c.pos + (m + n) ≤ buffer.size) :
    (c.advance buffer m).advance buffer n = c.advance buffer (m + n) := by
  have hsplit : buffer.extract c.pos (c.pos + (m + n)) =
      buffer.extract c.pos (c.pos + m) ++ buffer.extract (c.pos + m) (c.pos + m + n) := by
    rw [Array.extract_append_extract, Nat.min_eq_left (by omega), Nat.max_eq_right (by omega),
      Nat.add_assoc]
  have hsize : (buffer.extract c.pos (c.pos + m)).size = m := by
    rw [Array.size_extract]
    omega
  rw [advance_of_le (by rw [pos_advance]; omega), advance_of_le (by omega), advance_of_le h]
  dsimp only
  rw [hsplit, Buffer.newlineCount_append, Buffer.lastLineStart?_append, hsize]
  refine Cursor.mk.injEq .. ▸ ⟨Nat.add_assoc .., Nat.add_assoc .., ?_⟩
  cases Buffer.lastLineStart? (buffer.extract (c.pos + m) (c.pos + m + n)) with
  | none =>
    cases hp : Buffer.lastLineStart? (buffer.extract c.pos (c.pos + m)) with
    | none => simp [Nat.add_assoc]
    | some start =>
      have hle := (Buffer.lastLineStart?_bounds hp).2
      simp only [Option.map_none, Option.none_or]
      omega
  | some start => simp only [Option.map_some, Option.some_or, Nat.add_sub_add_left]

theorem advance_of_not_mem {c : Cursor} {buffer : Buffer} {n : Nat} (h : Byte.newline ∉ buffer)
    (hn : c.pos + n ≤ buffer.size) : c.advance buffer n = ⟨c.pos + n, c.line, c.column + n⟩ := by
  have hpassed : Byte.newline ∉ buffer.extract c.pos (c.pos + n) := by
    intro hmem
    obtain ⟨k, hk, hget⟩ := Array.mem_extract_iff_getElem.mp hmem
    exact h (hget ▸ Array.getElem_mem _)
  have hstart := Buffer.lastLineStart?_eq_none_iff.mpr hpassed
  have hcount : Buffer.newlineCount (buffer.extract c.pos (c.pos + n)) = 0 :=
    Array.count_eq_zero.mpr hpassed
  rw [advance_of_le hn, hstart, hcount, Nat.add_zero]

end Cursor

end ByteRegex
