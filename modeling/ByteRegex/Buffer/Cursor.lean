import ByteRegex.Buffer.Lines

/-!
# Cursors

A cursor is a position in a buffer with its line and column, both counted from 1. It moves
forward only, and looks at each byte it passes once.
-/

namespace ByteRegex

/-- A position with its line and column. -/
structure Cursor where
  pos : Nat
  line : Nat
  column : Nat
deriving DecidableEq

namespace Cursor

/-- The start of a buffer whose first line has the number `line`. -/
def start (line : Nat) : Cursor := ⟨0, line, 1⟩

/-- Move forward over a number of bytes. A cursor that leaves the buffer keeps its line and
column. -/
def advance (c : Cursor) (buffer : Buffer) (count : Nat) : Cursor :=
  let pos := c.pos + count
  if pos ≤ buffer.size then
    let passed : Buffer := buffer.extract c.pos pos
    match passed.lastLineStart? with
    | some start => ⟨pos, c.line + passed.newlineCount, pos - (c.pos + start) + 1⟩
    | none => ⟨pos, c.line, c.column + count⟩
  else { c with pos }

@[simp] theorem pos_advance (c : Cursor) (buffer : Buffer) (count : Nat) :
    (c.advance buffer count).pos = c.pos + count := by
  unfold advance
  dsimp only
  split
  · split <;> rfl
  · rfl

end Cursor

end ByteRegex
