import ByteRegex.Buffer.Lines

/-!
# Lines as parts of their buffer

A line is a slice of its buffer that holds no newline (`Line.Within`); each line that is read is one
(`Lines.within_of_mem_toList`).
-/

namespace ByteRegex

/-- A line lies in a buffer, and has no newline. -/
structure Line.Within (l : Line) (buffer : Buffer) : Prop where
  bytes_eq : l.bytes = buffer.extract l.offset (l.offset + l.bytes.size)
  finish_le : l.offset + l.bytes.size ≤ buffer.size
  newline_not_mem : Byte.newline ∉ l.bytes

variable {buffer : Buffer} {pos n i : Nat} {l : Line} {ls rest : Lines}

namespace Buffer

/-- There is no newline before the first one. -/
theorem ne_newline_of_newlineFrom? (h : ∀ n ∈ newlineFrom? buffer pos, i < n) (hpos : pos ≤ i)
    (hi : i < buffer.size) : buffer[i] ≠ Byte.newline := by
  fun_induction newlineFrom? buffer pos with
  | case1 pos _ _ => exact absurd (h pos rfl) (Nat.not_lt_of_le hpos)
  | case2 pos hlt hne ih =>
    by_cases heq : pos = i
    · subst heq
      exact hne
    · exact ih h (by omega)
  | case3 pos hge => exact absurd (Nat.lt_of_le_of_lt hpos hi) hge

end Buffer

/-- What lies between an offset and the next newline, or the end, is a line. -/
theorem Line.within_extract (hpos : pos ≤ n) (hn : n ≤ buffer.size)
    (h : ∀ m ∈ Buffer.newlineFrom? buffer pos, n ≤ m) :
    Line.Within ⟨pos, buffer.extract pos n⟩ buffer := by
  have hsize : (buffer.extract pos n).size = n - pos := by
    rw [Array.size_extract, Nat.min_eq_left hn]
  refine ⟨?_, ?_, ?_⟩
  · dsimp only
    rw [hsize, Nat.add_sub_cancel' hpos]
  · dsimp only
    omega
  · intro hmem
    obtain ⟨k, hk, hget⟩ := Array.mem_extract_iff_getElem.mp hmem
    have hlt : pos + k < n := by omega
    exact Buffer.ne_newline_of_newlineFrom? (fun m hm => Nat.lt_of_lt_of_le hlt (h m hm))
      (Nat.le_add_right pos k) (Nat.lt_of_lt_of_le hlt hn) hget

namespace Lines

/-- Reading a line takes it off the buffer. -/
theorem within_of_next? (h : ls.next? = some (l, rest)) (hpos : ls.pos ≤ ls.buffer.size) :
    l.Within ls.buffer ∧ rest.buffer = ls.buffer ∧ rest.pos ≤ rest.buffer.size := by
  unfold next? at h
  split at h
  · cases h
  · split at h
    · next n hn =>
      have hbounds := Buffer.newlineFrom?_bounds hn
      cases h
      refine ⟨Line.within_extract hbounds.1 (Nat.le_of_lt hbounds.2) fun m hm => ?_, rfl, hbounds.2⟩
      rw [hn] at hm
      exact Nat.le_of_eq (Option.some.inj hm)
    · next hnone =>
      cases h
      refine ⟨Line.within_extract hpos (Nat.le_refl _) fun m hm => ?_, rfl, hpos⟩
      rw [hnone] at hm
      cases hm

theorem within_of_mem_toList (hpos : ls.pos ≤ ls.buffer.size) (hl : l ∈ ls.toList) :
    l.Within ls.buffer := by
  fun_induction toList ls with
  | case1 ls line rest hnext ih =>
    obtain ⟨hwithin, hbuffer, hrest⟩ := within_of_next? hnext hpos
    rcases List.mem_cons.mp hl with rfl | hl
    · exact hwithin
    · exact hbuffer ▸ ih hrest hl
  | case2 => cases hl

/-- **Each line of a buffer is a slice of it without newlines.** -/
theorem within_of_mem_ofBuffer (hl : l ∈ (ofBuffer buffer).toList) : l.Within buffer :=
  within_of_mem_toList (Nat.zero_le _) hl

end Lines

end ByteRegex
