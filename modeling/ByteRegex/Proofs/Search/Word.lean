import ByteRegex.Proofs.Expression
import ByteRegex.Proofs.Search.Trail

/-!
# Trails as words

A trail is an accepted word together with a way to read it (`matchesWithin_iff`). If the words of an
automaton, with their labels looked up in the pool of classes, are those of an expression, then the
trails are the derivations of the expression (`matchesWithin_iff_derives`).
-/

namespace ByteRegex

variable {a : Automaton} {classes : Array ByteClass} {buffer : Buffer} {offset limit n p s t : Nat}
variable {i j : Nat} {l : Label} {x : Letter} {w : List Label} {v : List Letter} {e : Expr}

/-! ## Trails and words -/

namespace Automaton

theorem Trail.exists_path (h : a.Trail buffer offset n t p) :
    ∃ s w, a.isStart s = true ∧ Path a.edges s w t ∧ w.length = n ∧
      WordMoves (Label.Moves a.classes buffer) w offset (offset + p) := by
  induction h with
  | @start s hs => exact ⟨s, [], hs, .refl, rfl, rfl⟩
  | step _ he hmoves ih =>
    obtain ⟨s, w, hs, hw, rfl, hread⟩ := ih
    refine ⟨s, _, hs, hw.step he, List.length_append, wordMoves_append.mpr ?_⟩
    exact ⟨_, hread, _, hmoves, rfl⟩

theorem trail_of_path (hs : a.isStart s = true) (h : Path a.edges s w t)
    (hread : WordMoves (Label.Moves a.classes buffer) w offset j) :
    ∃ p, j = offset + p ∧ a.Trail buffer offset w.length t p := by
  induction h generalizing j with
  | refl => exact ⟨0, hread, .start hs⟩
  | @step u t e _ he ih =>
    obtain ⟨k, hread, j', (hmoves : Label.Moves ..), hj⟩ := wordMoves_append.mp hread
    obtain rfl : j = j' := hj
    obtain ⟨p, rfl, htrail⟩ := ih hread
    -- no label leads back, so the place is still behind the offset
    have hle : offset ≤ j := Nat.le_trans (Nat.le_add_right offset p) hmoves.le
    obtain ⟨q, rfl⟩ := Nat.exists_eq_add_of_le hle
    rw [List.length_append]
    exact ⟨q, rfl, htrail.step he hmoves⟩

/-- A match is a way to read an accepted word. -/
theorem matchesWithin_iff :
    a.MatchesWithin limit buffer offset p ↔ ∃ w ∈ a.language, w.length ≤ limit ∧
      WordMoves (Label.Moves a.classes buffer) w offset (offset + p) := by
  constructor
  · rintro ⟨n, t, hn, ht, htrail⟩
    obtain ⟨s, w, hs, hw, rfl, hread⟩ := htrail.exists_path
    exact ⟨w, ⟨s, t, hs, ht, hw⟩, hn, hread⟩
  · rintro ⟨w, ⟨s, t, hs, ht, hw⟩, hn, hread⟩
    obtain ⟨q, hq, htrail⟩ := trail_of_path hs hw hread
    obtain rfl := Nat.add_left_cancel hq
    exact ⟨w.length, t, hn, ht, htrail⟩

end Automaton

/-! ## Labels and letters -/

theorem moves_iff_of_letter? (h : l.letter? classes = some x) :
    l.Moves classes buffer i j ↔ x.Moves buffer i j := by
  cases l with
  | epsilon => cases h
  | anchor a =>
    obtain rfl := Option.some.inj h
    exact Iff.rfl
  | byte b =>
    obtain rfl := Option.some.inj h
    exact Iff.rfl
  | wildcard w =>
    obtain rfl := Option.some.inj h
    exact Iff.rfl
  | classRef id =>
    obtain ⟨c, hc, rfl⟩ := Option.map_eq_some_iff.mp h
    simp only [Label.Moves, Label.accepts, Letter.Moves, Letter.accepts, hc]

theorem wordMoves_iff_of_letter? (h : w.map (Label.letter? classes) = v.map some) :
    WordMoves (Label.Moves classes buffer) w i j ↔ WordMoves (Letter.Moves buffer) v i j := by
  induction w generalizing v i with
  | nil =>
    obtain rfl := List.map_eq_nil_iff.mp h.symm
    exact Iff.rfl
  | cons l w ih =>
    cases v with
    | nil => cases h
    | cons x v =>
      obtain ⟨hl, hw⟩ := List.cons.inj h
      exact exists_congr fun k => and_congr (moves_iff_of_letter? hl) (ih hw)

/-- **The matches of an automaton are the derivations of an expression with the same words.** -/
theorem Automaton.matchesWithin_iff_derives
    (h : a.language.map (Label.letter? a.classes) = e.language.map some) :
    a.MatchesWithin limit buffer offset p ↔
      ∃ n ≤ limit, e.Derives buffer ⟨0, offset⟩ ⟨n, offset + p⟩ := by
  rw [matchesWithin_iff, Expr.derives_iff]
  constructor
  · rintro ⟨w, hw, hlength, hread⟩
    have hmem : w.map (Label.letter? a.classes) ∈ e.language.map some := h ▸ ⟨w, hw, rfl⟩
    obtain ⟨v, hv, hvw⟩ := hmem
    have hvw : w.map (Label.letter? a.classes) = v.map some := hvw.symm
    have hsame : v.length = w.length := by simpa using congrArg List.length hvw.symm
    refine ⟨v.length, hsame ▸ hlength, v, hv, (Nat.zero_add _).symm, ?_⟩
    exact (wordMoves_iff_of_letter? hvw).mp hread
  · rintro ⟨n, hn, v, hv, hlength, hread⟩
    have hmem : v.map some ∈ a.language.map (Label.letter? a.classes) := h ▸ ⟨v, hv, rfl⟩
    obtain ⟨w, hw, hwv⟩ := hmem
    have hwv : w.map (Label.letter? a.classes) = v.map some := hwv
    have hsame : w.length = v.length := by simpa using congrArg List.length hwv
    refine ⟨w, hw, ?_, (wordMoves_iff_of_letter? hwv).mpr hread⟩
    rw [Nat.zero_add] at hlength
    exact (hsame.trans hlength.symm).trans_le hn

end ByteRegex
