import ByteRegex.Proofs.Automaton
import ByteRegex.Proofs.StateSet
import ByteRegex.Search.Attempt
import Mathlib.Order.Bounds.Defs

/-!
# Trails of a search

A trail is a path of an automaton together with the bytes that it reads: it leads from a start at
the offset of an attempt to a state at a position, over a number of edges. The answer of an attempt
is stated over trails: it is the greatest position at which a final is reached over no more edges
than allowed (`Automaton.MatchesWithin`, `IsLongest`).
-/

namespace ByteRegex

/-- A result is the greatest number with a property, and nothing if no number has it. -/
def IsLongest (P : Nat → Prop) : Option Nat → Prop
  | none => ∀ p, ¬ P p
  | some b => IsGreatest {p | P p} b

namespace IsLongest

variable {P Q : Nat → Prop} {r r' : Option Nat}

theorem unique (h : IsLongest P r) (h' : IsLongest P r') : r = r' := by
  cases r with
  | none =>
    cases r' with
    | none => rfl
    | some b => exact absurd h'.1 (h b)
  | some b =>
    cases r' with
    | none => exact absurd h.1 (h' b)
    | some c => exact congrArg some (IsGreatest.unique h h')

theorem congr (hPQ : ∀ p, P p ↔ Q p) (h : IsLongest P r) : IsLongest Q r := by
  rwa [← funext fun p => propext (hPQ p)]

end IsLongest

/-- From where to where a label leads: epsilon stays, an anchor stays where it holds
(`Anchor.holdsAt_iff`), the others read a byte. -/
def Label.Moves (classes : Array ByteClass) (buffer : Buffer) (l : Label) (i j : Nat) : Prop :=
  match l with
  | epsilon => j = i
  | anchor a => a.holdsAt buffer i = true ∧ j = i
  | l => (∃ b, buffer[i]? = some b ∧ l.accepts classes b = true) ∧ j = i + 1

namespace Automaton

/-- Over `n` edges, a start at the offset leads to the state `s` at the position `p` behind it. -/
inductive Trail (a : Automaton) (buffer : Buffer) (offset : Nat) : Nat → Nat → Nat → Prop where
  | start {s : Nat} : a.isStart s = true → Trail a buffer offset 0 s 0
  | step {n s p q : Nat} {e : Edge} :
    Trail a buffer offset n s p → e ∈ a.edges s →
    e.label.Moves a.classes buffer (offset + p) (offset + q) →
    Trail a buffer offset (n + 1) e.target q

/-- A final is reached at the position `p` over at most `limit` edges. -/
def MatchesWithin (a : Automaton) (limit : Nat) (buffer : Buffer) (offset p : Nat) : Prop :=
  ∃ n s, n ≤ limit ∧ a.isFinal s = true ∧ a.Trail buffer offset n s p

end Automaton

variable {a : Automaton} {classes : Array ByteClass} {buffer : Buffer} {offset n p q s i j : Nat}
variable {e : Edge} {l : Label}

theorem Label.Moves.stays_or_reads (h : l.Moves classes buffer i j) :
    j = i ∨ i < buffer.size ∧ j = i + 1 := by
  have hread : (∃ b, buffer[i]? = some b ∧ l.accepts classes b = true) ∧ j = i + 1 →
      i < buffer.size ∧ j = i + 1 := by
    rintro ⟨⟨b, hb, -⟩, hj⟩
    exact ⟨(Array.getElem?_eq_some_iff.mp hb).1, hj⟩
  cases l with
  | epsilon => exact .inl h
  | anchor a => exact .inl h.2
  | byte b => exact .inr (hread h)
  | wildcard w => exact .inr (hread h)
  | classRef id => exact .inr (hread h)

theorem Label.Moves.le (h : l.Moves classes buffer i j) : i ≤ j := by
  rcases h.stays_or_reads with rfl | ⟨-, rfl⟩
  · exact Nat.le_refl _
  · exact Nat.le_succ _

theorem Label.Moves.le_size (h : l.Moves classes buffer (offset + p) (offset + q))
    (hp : p ≤ buffer.size - offset) : q ≤ buffer.size - offset := by
  have := h.stays_or_reads
  omega

namespace Automaton

theorem Trail.lt_stateCount (ha : a.InRange) (h : a.Trail buffer offset n s p) :
    s < a.stateCount := by
  cases h with
  | start hs => exact ha.start_lt hs
  | step _ he _ => exact ha.target_lt he

end Automaton

/-! ## Spots -/

namespace Spot

variable {last : Nat} {x y : Spot (buffer.size - offset)} {row : List Edge}

@[ext] theorem ext' {x y : Spot last} (hs : x.state = y.state) (hp : x.pos = y.pos)
    (hd : x.depth = y.depth) : x = y := by
  cases x
  cases y
  cases hs
  cases hp
  cases hd
  rfl

/-- **An edge is followed exactly where its label leads.** -/
theorem follow?_eq_some_iff :
    x.follow? classes buffer offset e = some y ↔
      y.state = e.target ∧ y.depth = x.depth + 1 ∧
        e.label.Moves classes buffer (offset + x.pos) (offset + y.pos) := by
  obtain ⟨target, label⟩ := e
  have hstay : some { x with state := target, depth := x.depth + 1 } = some y ↔
      y.state = target ∧ y.depth = x.depth + 1 ∧ offset + y.pos = offset + x.pos := by
    constructor
    · intro h
      obtain rfl := Option.some.inj h
      exact ⟨rfl, rfl, rfl⟩
    · rintro ⟨hs, hd, hp⟩
      exact congrArg some (ext' hs.symm (Nat.add_left_cancel hp).symm hd.symm)
  have hread : (if h : offset + x.pos < buffer.size then
        if label.accepts classes buffer[offset + x.pos] then
          some (⟨target, x.pos + 1, x.depth + 1, by omega⟩ : Spot (buffer.size - offset))
        else none
      else none) = some y ↔
      y.state = target ∧ y.depth = x.depth + 1 ∧
        (∃ b, buffer[offset + x.pos]? = some b ∧ label.accepts classes b = true) ∧
        offset + y.pos = offset + x.pos + 1 := by
    constructor
    · intro h
      split at h
      · next hlt =>
        split at h
        · next hb =>
          obtain rfl := Option.some.inj h
          exact ⟨rfl, rfl, ⟨_, Array.getElem?_eq_getElem hlt, hb⟩, rfl⟩
        · cases h
      · cases h
    · rintro ⟨hs, hd, ⟨b, hb, hacc⟩, hp⟩
      obtain ⟨hlt, rfl⟩ := Array.getElem?_eq_some_iff.mp hb
      rw [dif_pos hlt, if_pos hacc]
      exact congrArg some (ext' hs.symm (Nat.add_left_cancel hp).symm hd.symm)
  cases label with
  | epsilon => exact hstay
  | anchor a =>
    show (if a.holdsAt buffer (offset + x.pos) = true then _ else none) = _ ↔
      _ ∧ _ ∧ a.holdsAt buffer (offset + x.pos) = true ∧ _
    by_cases ha : a.holdsAt buffer (offset + x.pos) = true
    · rw [if_pos ha, and_iff_right ha]
      exact hstay
    · rw [if_neg ha]
      exact iff_of_false (Option.some_ne_none y).symm fun h => ha h.2.2.1
  | byte b => exact hread
  | wildcard w => exact hread
  | classRef id => exact hread

/-- The spots that the edges of a row lead to. -/
def successors (classes : Array ByteClass) (buffer : Buffer) (offset : Nat)
    (x : Spot (buffer.size - offset)) (row : List Edge) : List (Spot (buffer.size - offset)) :=
  row.filterMap (x.follow? classes buffer offset)

theorem mem_successors :
    y ∈ x.successors classes buffer offset row ↔ ∃ e ∈ row, y.state = e.target ∧
      y.depth = x.depth + 1 ∧ e.label.Moves classes buffer (offset + x.pos) (offset + y.pos) := by
  rw [successors, List.mem_filterMap]
  exact exists_congr fun e => and_congr_right fun _ => follow?_eq_some_iff

/-- The last edge of a row is pushed last. -/
theorem pushAll_eq (frontier : List (Spot (buffer.size - offset))) :
    x.pushAll classes buffer offset row frontier =
      (x.successors classes buffer offset row).reverse ++ frontier := by
  unfold pushAll successors
  induction row generalizing frontier with
  | nil => rfl
  | cons e row ih =>
    rw [List.foldl_cons, ih, List.filterMap_cons]
    cases x.follow? classes buffer offset e with
    | none => rfl
    | some y => simp

end Spot

/-! ## Where a search begins -/

theorem Attempter.mem_startSpots {last : Nat} {x : Spot last} :
    x ∈ startSpots a last ↔ a.isStart x.state = true ∧ x.pos = 0 ∧ x.depth = 0 := by
  simp only [startSpots, List.mem_map, List.mem_reverse, StateSet.mem_toList]
  constructor
  · rintro ⟨s, hs, rfl⟩
    exact ⟨hs, rfl, rfl⟩
  · rintro ⟨hs, hp, hd⟩
    exact ⟨x.state, hs, Spot.ext' rfl hp.symm hd.symm⟩

end ByteRegex
