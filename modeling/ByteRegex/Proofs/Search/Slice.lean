import ByteRegex.Proofs.Buffer.Lines
import ByteRegex.Proofs.Search.Exploration

/-!
# Attempts that cannot leave their line

An automaton without anchors that reads no newline (`Automaton.NewlineBlind`) cannot tell a line
from the place of that line in a buffer: an edge can be followed in the one if it can in the other,
since a search that has come to the end of the line finds a newline there, or nothing. So an attempt
in the line takes the same steps as one in the buffer (`explore_map_widen`), and finds and gives up
the same (`Line.Within.longestMatch_eq`).
-/

namespace ByteRegex

/-- No label of an automaton tests an anchor or reads a newline. -/
def Automaton.NewlineBlind (a : Automaton) : Prop :=
  ∀ s, ∀ e ∈ a.edges s, (∀ x, e.label ≠ .anchor x) ∧
    e.label.accepts a.classes Byte.newline = false

/-- What is behind a line is a newline, or nothing. -/
def Line.EndsIn (l : Line) (buffer : Buffer) : Prop :=
  l.offset + l.bytes.size = buffer.size ∨
    buffer[l.offset + l.bytes.size]? = some Byte.newline

/-- The same spot where positions may reach further. -/
def Spot.widen {m n : Nat} (h : m ≤ n) (x : Spot m) : Spot n :=
  ⟨x.state, x.pos, x.depth, Nat.le_trans x.pos_le h⟩

variable {a : Automaton} {classes : Array ByteClass} {limit offset i j : Nat} {buffer : Buffer}
  {l : Line} {label : Label} {e : Edge}

namespace Line.Within

/-- The bytes of a line are those of its buffer. -/
theorem getElem?_bytes (h : l.Within buffer) (hi : i < l.bytes.size) :
    l.bytes[i]? = buffer[l.offset + i]? := by
  have hfinish := h.finish_le
  conv_lhs => rw [h.bytes_eq]
  rw [Array.getElem?_extract, if_pos (by omega)]

theorem sub_le_sub (h : l.Within buffer) (offset : Nat) :
    l.bytes.size - offset ≤ buffer.size - (l.offset + offset) := by
  have := h.finish_le
  omega

/-! ## Edges -/

/-- What is accepted in a line is accepted at the same place of its buffer; the newline behind the
line is not accepted. -/
theorem accepts_iff (h : l.Within buffer) (hends : l.EndsIn buffer)
    (hblind : label.accepts classes Byte.newline = false) (hi : i ≤ l.bytes.size) :
    (∃ b, buffer[l.offset + i]? = some b ∧ label.accepts classes b = true) ↔
      ∃ b, l.bytes[i]? = some b ∧ label.accepts classes b = true := by
  rcases Nat.lt_or_eq_of_le hi with hlt | rfl
  · rw [h.getElem?_bytes hlt]
  · rw [Array.getElem?_eq_none (Nat.le_refl _)]
    refine iff_of_false ?_ (by simp)
    rintro ⟨b, hb, haccepts⟩
    rcases hends with hend | hnewline
    · rw [hend, Array.getElem?_eq_none (Nat.le_refl _)] at hb
      cases hb
    · obtain rfl := Option.some.inj (hnewline.symm.trans hb)
      rw [hblind] at haccepts
      cases haccepts

theorem moves_iff (h : l.Within buffer) (hends : l.EndsIn buffer)
    (hanchor : ∀ x, label ≠ .anchor x) (hblind : label.accepts classes Byte.newline = false)
    (hi : i ≤ l.bytes.size) :
    label.Moves classes buffer (l.offset + i) (l.offset + j) ↔ label.Moves classes l.bytes i j := by
  have hread : (∃ b, buffer[l.offset + i]? = some b ∧ label.accepts classes b = true) ∧
      l.offset + j = l.offset + i + 1 ↔
      (∃ b, l.bytes[i]? = some b ∧ label.accepts classes b = true) ∧ j = i + 1 :=
    and_congr (h.accepts_iff hends hblind hi) (by omega)
  cases label with
  | epsilon => exact Nat.add_left_cancel_iff
  | anchor x => exact absurd rfl (hanchor x)
  | byte _ | wildcard _ | classRef _ => exact hread

/-- An edge leads to the same spot in a line and in its buffer. -/
theorem follow?_widen (h : l.Within buffer) (hends : l.EndsIn buffer)
    (hanchor : ∀ x, e.label ≠ .anchor x) (hblind : e.label.accepts classes Byte.newline = false)
    (hoffset : offset ≤ l.bytes.size) (x : Spot (l.bytes.size - offset)) :
    (x.widen (h.sub_le_sub offset)).follow? classes buffer (l.offset + offset) e =
      (x.follow? classes l.bytes offset e).map (Spot.widen (h.sub_le_sub offset)) := by
  have hx := x.pos_le
  have hmoves : ∀ q, e.label.Moves classes buffer (l.offset + offset + x.pos)
      (l.offset + offset + q) ↔ e.label.Moves classes l.bytes (offset + x.pos) (offset + q) := by
    intro q
    rw [Nat.add_assoc, Nat.add_assoc]
    exact h.moves_iff hends hanchor hblind (by omega)
  ext y
  rw [Option.map_eq_some_iff, Spot.follow?_eq_some_iff]
  constructor
  · rintro ⟨hs, hd, hp⟩
    have hp := (hmoves y.pos).mp hp
    exact ⟨⟨y.state, y.pos, y.depth, hp.le_size hx⟩, Spot.follow?_eq_some_iff.mpr ⟨hs, hd, hp⟩,
      rfl⟩
  · rintro ⟨y, hy, rfl⟩
    obtain ⟨hs, hd, hp⟩ := Spot.follow?_eq_some_iff.mp hy
    exact ⟨hs, hd, (hmoves y.pos).mpr hp⟩

/-! ## Searches -/

variable (ha : a.NewlineBlind) (h : l.Within buffer) (hends : l.EndsIn buffer)
  (hoffset : offset ≤ l.bytes.size)

include ha h hends hoffset

theorem pushAll_widen (x : Spot (l.bytes.size - offset))
    (frontier : List (Spot (l.bytes.size - offset))) :
    (x.widen (h.sub_le_sub offset)).pushAll a.classes buffer (l.offset + offset)
        (a.edges x.state) (frontier.map (Spot.widen (h.sub_le_sub offset))) =
      (x.pushAll a.classes l.bytes offset (a.edges x.state) frontier).map
        (Spot.widen (h.sub_le_sub offset)) := by
  rw [Spot.pushAll_eq, Spot.pushAll_eq, List.map_append, List.map_reverse, Spot.successors,
    Spot.successors, List.map_filterMap]
  congr 2
  refine List.filterMap_congr fun e he => ?_
  obtain ⟨hanchor, hblind⟩ := ha _ e he
  exact h.follow?_widen hends hanchor hblind hoffset x

/-- **A search in a line takes the same steps as one in its buffer.** -/
theorem explore_map_widen (table : DepthTable) (best : Option Nat) (abandoned : Array Nat)
    (frontier : List (Spot (l.bytes.size - offset))) :
    explore a limit buffer (l.offset + offset) table best abandoned
        (frontier.map (Spot.widen (h.sub_le_sub offset))) =
      explore a limit l.bytes offset table best abandoned frontier := by
  fun_induction explore a limit l.bytes offset table best abandoned frontier with
  | case1 table best abandoned => rw [List.map_nil, explore]
  | case2 table best abandoned x rest himp _ _ hlimit ih =>
    rw [List.map_cons, explore]
    exact (dif_pos himp).trans ((if_pos hlimit).trans ih)
  | case3 table best abandoned x rest himp _ _ hlimit ih =>
    rw [← h.pushAll_widen ha hends hoffset] at ih
    rw [List.map_cons, explore]
    exact (dif_pos himp).trans ((if_neg hlimit).trans ih)
  | case4 table best abandoned x rest himp ih =>
    rw [List.map_cons, explore]
    exact (dif_neg himp).trans ih

/-- **An attempt in a line is one at the same place of its buffer.** -/
theorem longestMatch_eq :
    a.longestMatch limit buffer (l.offset + offset) = a.longestMatch limit l.bytes offset := by
  have hle : l.offset + offset ≤ buffer.size := by
    have := h.finish_le
    omega
  have hstart : Attempter.startSpots a (buffer.size - (l.offset + offset)) =
      (Attempter.startSpots a (l.bytes.size - offset)).map (Spot.widen (h.sub_le_sub offset)) := by
    unfold Attempter.startSpots
    rw [List.map_map]
    rfl
  rw [Automaton.longestMatch_of_le hle, Automaton.longestMatch_of_le hoffset, hstart,
    h.explore_map_widen ha hends hoffset]

end Line.Within

end ByteRegex
