import ByteRegex.Byte.Basic

/-!
# Lines of a buffer

A newline ends the line before it. A buffer that ends in a newline has no empty line after it,
and the empty buffer is one empty line.

`Lines` reads the lines of a buffer one after another; `Lines.toList` reads all that are left.
Each reading takes at least one byte off the buffer or ends it (`remaining_next?_lt`).
-/

namespace ByteRegex

/-! ## Newlines -/

namespace Buffer

/-- The offset of the first newline at or after an offset. -/
def newlineFrom? (buffer : Buffer) (pos : Nat) : Option Nat :=
  if h : pos < buffer.size then
    if buffer[pos] = Byte.newline then some pos else newlineFrom? buffer (pos + 1)
  else none
termination_by buffer.size - pos

/-- The offset of the first newline. -/
def firstNewline? (buffer : Buffer) : Option Nat := newlineFrom? buffer 0

/-- The number of newlines. -/
def newlineCount (buffer : Buffer) : Nat := Array.count Byte.newline buffer

/-- The offset just past the last newline. -/
def lastLineStart? (buffer : Buffer) : Option Nat :=
  (buffer.toList.reverse.idxOf? Byte.newline).map (buffer.size - ·)

theorem newlineFrom?_bounds {buffer : Buffer} {pos n : Nat}
    (h : newlineFrom? buffer pos = some n) : pos ≤ n ∧ n < buffer.size := by
  fun_induction newlineFrom? buffer pos with
  | case1 pos hlt _ => cases h; exact ⟨Nat.le_refl _, hlt⟩
  | case2 pos _ _ ih => have := ih h; omega
  | case3 => simp at h

end Buffer

/-! ## Lines -/

/-- A line: where it starts, and its bytes without the newline. -/
structure Line where
  offset : Nat
  bytes : Buffer
deriving DecidableEq

/-- The lines of a buffer that are still to be read. -/
structure Lines where
  buffer : Buffer
  pos : Nat
  /-- No line is left. -/
  done : Bool

namespace Lines

/-- All lines of a buffer. -/
def ofBuffer (buffer : Buffer) : Lines := ⟨buffer, 0, false⟩

/-- The next line, and the lines after it. -/
def next? (ls : Lines) : Option (Line × Lines) :=
  if ls.done then none
  else match Buffer.newlineFrom? ls.buffer ls.pos with
    | some n =>
      some (⟨ls.pos, ls.buffer.extract ls.pos n⟩,
        { ls with pos := n + 1, done := n + 1 == ls.buffer.size })
    | none => some (⟨ls.pos, ls.buffer.extract ls.pos ls.buffer.size⟩, { ls with done := true })

/-- A bound on the number of readings. -/
def remaining (ls : Lines) : Nat := if ls.done then 0 else ls.buffer.size - ls.pos + 1

theorem remaining_next?_lt {ls rest : Lines} {line : Line} (h : ls.next? = some (line, rest)) :
    rest.remaining < ls.remaining := by
  unfold next? at h
  split at h
  · simp at h
  · next hd =>
    split at h
    · next n hn =>
      have := Buffer.newlineFrom?_bounds hn
      cases h
      simp only [remaining, hd, Bool.false_eq_true, if_false]
      split
      · exact Nat.succ_pos _
      · omega
    · cases h
      simp [remaining, hd]

/-- The lines that are left. -/
def toList (ls : Lines) : List Line :=
  match _h : ls.next? with
  | some (line, rest) => line :: rest.toList
  | none => []
termination_by ls.remaining
decreasing_by exact remaining_next?_lt _h

end Lines

end ByteRegex
