import ByteRegex.Byte.Basic

/-!
# Anchors

An anchor reads nothing. It looks at what lies on the two sides of a position, each of which is
a byte or the edge of the buffer. In terms of the buffer, `^` holds at its start, `$` at its end,
and `\b` where a word byte lies on one side only (`Anchor.holdsAt_iff`).
-/

namespace ByteRegex

/-- What lies on one side of a position. -/
inductive Neighbour where
  /-- The start or the end of the buffer. -/
  | edge
  | byte (b : Byte)
deriving DecidableEq

namespace Neighbour

/-- What lies before a position. -/
def behind (buffer : Buffer) (pos : Nat) : Neighbour :=
  match pos with
  | 0 => edge
  | p + 1 => match buffer[p]? with
    | some b => byte b
    | none => edge

/-- What lies after a position. -/
def ahead (buffer : Buffer) (pos : Nat) : Neighbour :=
  match buffer[pos]? with
  | some b => byte b
  | none => edge

/-- Whether a word byte lies there. The edge is no word byte. -/
def isWord : Neighbour → Bool
  | edge => false
  | byte b => b.isWord

/-- The byte that lies there, if any. -/
def byte? : Neighbour → Option Byte
  | edge => none
  | byte b => some b

end Neighbour

/-- The zero-width assertions. -/
inductive Anchor where
  /-- `^` -/
  | start
  /-- `$` -/
  | finish
  /-- `\b` -/
  | wordBoundary
deriving DecidableEq

namespace Anchor

/-- Whether an anchor holds between two neighbours. -/
def holds : Anchor → Neighbour → Neighbour → Bool
  | start, behind, _ => behind == .edge
  | finish, _, ahead => ahead == .edge
  | wordBoundary, behind, ahead => behind.isWord != ahead.isWord

/-- Whether an anchor holds at a position of a buffer. -/
def holdsAt (a : Anchor) (buffer : Buffer) (pos : Nat) : Bool :=
  a.holds (.behind buffer pos) (.ahead buffer pos)

/-- An anchor as it is written in a pattern. -/
def text : Anchor → String
  | start => "^"
  | finish => "$"
  | wordBoundary => "\\b"

/-- The place of an anchor in the order of labels. -/
def rank : Anchor → Nat
  | start => 0
  | finish => 1
  | wordBoundary => 2

theorem rank_lt (a : Anchor) : a.rank < 3 := by cases a <;> decide

theorem rank_inj {a b : Anchor} (h : a.rank = b.rank) : a = b := by
  cases a <;> cases b <;> first | rfl | simp [rank] at h

end Anchor

/-! ## Where anchors hold -/

namespace Buffer

/-- A word byte lies at a place. -/
def WordAt (buffer : Buffer) (i : Nat) : Prop := ∃ b, buffer[i]? = some b ∧ b.isWord = true

/-- A word byte lies before a position. -/
def WordBefore (buffer : Buffer) (pos : Nat) : Prop := ∃ i, pos = i + 1 ∧ buffer.WordAt i

end Buffer

namespace Neighbour

variable {buffer : Buffer} {pos : Nat}

theorem behind_eq_edge_iff (hpos : pos ≤ buffer.size) : behind buffer pos = edge ↔ pos = 0 := by
  cases pos with
  | zero => simp [behind]
  | succ p => simp [behind, Array.getElem?_eq_getElem (Nat.lt_of_succ_le hpos)]

theorem ahead_eq_edge_iff : ahead buffer pos = edge ↔ buffer.size ≤ pos := by
  by_cases h : pos < buffer.size
  · simp [ahead, h]
  · simp [ahead, Nat.le_of_not_lt h]

theorem isWord_ahead : (ahead buffer pos).isWord = true ↔ buffer.WordAt pos := by
  cases h : buffer[pos]? <;> simp [ahead, isWord, Buffer.WordAt, h]

theorem isWord_behind : (behind buffer pos).isWord = true ↔ buffer.WordBefore pos := by
  cases pos with
  | zero => simp [behind, isWord, Buffer.WordBefore]
  | succ p =>
    cases h : buffer[p]? <;> simp [behind, isWord, Buffer.WordBefore, Buffer.WordAt, h]

end Neighbour

namespace Anchor

/-- What an anchor asks of a position: that it is the start of the buffer, or its end, or that it
has a word byte on one side only. -/
def Asks (buffer : Buffer) (pos : Nat) : Anchor → Prop
  | start => pos = 0
  | finish => pos = buffer.size
  | wordBoundary => ¬(buffer.WordBefore pos ↔ buffer.WordAt pos)

/-- **An anchor holds where the notation says.** -/
theorem holdsAt_iff {a : Anchor} {buffer : Buffer} {pos : Nat} (hpos : pos ≤ buffer.size) :
    a.holdsAt buffer pos = true ↔ a.Asks buffer pos := by
  cases a with
  | start => exact beq_iff_eq.trans (Neighbour.behind_eq_edge_iff hpos)
  | finish =>
    refine beq_iff_eq.trans (Neighbour.ahead_eq_edge_iff.trans ?_)
    exact ⟨Nat.le_antisymm hpos, fun h => Nat.le_of_eq h.symm⟩
  | wordBoundary =>
    rw [holdsAt, holds, bne_iff_ne, Asks, ← Neighbour.isWord_behind, ← Neighbour.isWord_ahead,
      Ne, Bool.eq_iff_iff]

end Anchor
end ByteRegex
