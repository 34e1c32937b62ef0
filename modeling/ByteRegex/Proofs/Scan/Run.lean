import ByteRegex.Proofs.Buffer.Cursor
import ByteRegex.Proofs.Scan.Leftmost
import ByteRegex.Proofs.Search.Reuse

/-!
# What a scan reports

A scan in progress has a list of matches that it will still report (`Scan.remaining`), made of the
matches of each of its units. Each step reports the head of that list and leaves its tail
(`Scan.found_next`, `Scan.remaining_next`), so the reports of any number of steps are the items of
the list in order, and nothing after its end (`Scan.found_steps`).

None of this depends on what the attempter has done before, since it is as good as a new one.
-/

namespace ByteRegex

/-- The offset and the length of a match. -/
def Match.toFound (m : Match) : Found := ⟨m.offset, m.length⟩

/-- The length of the longest match at an offset, as a scan looks for it. -/
def Automaton.lengthAt (a : Automaton) (buffer : Buffer) (offset : Nat) : Option Nat :=
  (a.longestMatch searchDepthLimit buffer offset).length

/-- The matches from an offset on. -/
def Automaton.foundsFrom (a : Automaton) (buffer : Buffer) (pos : Nat) : List Found :=
  ByteRegex.foundsFrom (a.lengthAt buffer) buffer.size pos

variable {a : Automaton} {t : Attempter} {u : ScanUnit} {us : List ScanUnit} {s : Scan}

/-! ## The next match of a unit -/

/-- From an offset on there is no match, or the search for the first one finds it. -/
theorem firstMatch_spec (ht : t.Ready a searchDepthLimit) (buffer : Buffer)
    (abandoned : Array Nat) (pos : Nat) :
    ∃ t' abandoned', t'.Ready a searchDepthLimit ∧
      (a.foundsFrom buffer pos = [] ∧
          firstMatch t buffer abandoned pos = (none, t', abandoned') ∨
        ∃ f, pos ≤ f.offset ∧
          a.foundsFrom buffer pos = f :: a.foundsFrom buffer (f.offset + max f.length 1) ∧
          firstMatch t buffer abandoned pos = (some f, t', abandoned')) := by
  fun_induction firstMatch t buffer abandoned pos with
  | case1 t abandoned pos hpos length given t' hfound =>
    have hlength : a.lengthAt buffer pos = some length := by
      rw [Automaton.lengthAt, ← ht.longestMatch_fst, hfound]
    refine ⟨t', _, ?_, .inr ⟨_, Nat.le_refl _, foundsFrom_of_some hpos hlength, rfl⟩⟩
    rw [show t' = (t.longestMatch buffer pos).2 by rw [hfound]]
    exact ht.longestMatch_snd buffer pos
  | case2 t abandoned pos hpos given t' hnone ih =>
    have hlength : a.lengthAt buffer pos = none := by
      rw [Automaton.lengthAt, ← ht.longestMatch_fst, hnone]
    have ht' : t'.Ready a searchDepthLimit := by
      rw [show t' = (t.longestMatch buffer pos).2 by rw [hnone]]
      exact ht.longestMatch_snd buffer pos
    have hstep : a.foundsFrom buffer pos = a.foundsFrom buffer (pos + 1) :=
      foundsFrom_of_none hpos hlength
    rw [hstep]
    obtain ⟨t'', abandoned', ht'', h | ⟨f, hf, h⟩⟩ := ih ht'
    · exact ⟨t'', abandoned', ht'', .inl h⟩
    · exact ⟨t'', abandoned', ht'', .inr ⟨f, by omega, h⟩⟩
  | case3 t abandoned pos hpos =>
    exact ⟨t, abandoned, ht, .inl ⟨foundsFrom_of_lt (Nat.lt_of_not_le hpos), rfl⟩⟩

namespace ScanUnit

/-- A match of a unit with its place in the whole buffer. -/
def report (u : ScanUnit) (f : Found) : Match :=
  let here := u.cursor.advance u.bytes (f.offset - u.cursor.pos)
  ⟨u.base + f.offset, f.length, here.line, here.column⟩

/-- The matches that are left in a unit. -/
def remaining (a : Automaton) (u : ScanUnit) : List Match :=
  (a.foundsFrom u.bytes u.cursor.pos).map u.report

/-- The matches that are left in a list of units. -/
def remainingIn (a : Automaton) (us : List ScanUnit) : List Match := us.flatMap (remaining a)

/-- A unit from some bytes further on. -/
def skip (u : ScanUnit) (count : Nat) : ScanUnit :=
  { u with cursor := u.cursor.advance u.bytes count }

/-- Where a match is reported does not depend on where the unit was entered. -/
theorem report_skip {count : Nat} {f : Found} (h : u.cursor.pos + count ≤ f.offset)
    (hsize : f.offset ≤ u.bytes.size) : (u.skip count).report f = u.report f := by
  have hcount : count + (f.offset - (u.cursor.pos + count)) = f.offset - u.cursor.pos := by omega
  unfold report skip
  dsimp only
  rw [Cursor.advance_advance (by rw [Cursor.pos_advance]; omega), Cursor.pos_advance, hcount]

/-- A unit is entered at a match, and again behind it. -/
theorem remaining_of_foundsFrom {f : Found} (hpos : u.cursor.pos ≤ f.offset)
    (h : a.foundsFrom u.bytes u.cursor.pos =
      f :: a.foundsFrom u.bytes (f.offset + max f.length 1)) :
    remaining a u =
      u.report f :: remaining a ((u.skip (f.offset - u.cursor.pos)).skip (max f.length 1)) := by
  have hhere : (u.skip (f.offset - u.cursor.pos)).cursor.pos = f.offset := by
    rw [skip, Cursor.pos_advance]
    omega
  have hafter : ((u.skip (f.offset - u.cursor.pos)).skip (max f.length 1)).cursor.pos =
      f.offset + max f.length 1 := by
    rw [skip, Cursor.pos_advance, hhere]
  rw [remaining, h, List.map_cons]
  refine congrArg (u.report f :: ·) ?_
  rw [remaining, hafter]
  refine List.map_congr_left fun g hg => ?_
  obtain ⟨hle, hsize, -⟩ := bounds_of_mem_foundsFrom hg
  have hskip : ((u.skip (f.offset - u.cursor.pos)).skip (max f.length 1)).report g =
      (u.skip (f.offset - u.cursor.pos)).report g := report_skip (by omega) hsize
  rw [hskip, report_skip (by omega) hsize]

/-- In a list of units there is no match left, or the next one is found. -/
theorem matchInUnits_spec (ht : t.Ready a searchDepthLimit) (abandoned : Array Nat)
    (us : List ScanUnit) :
    ∃ t' abandoned', t'.Ready a searchDepthLimit ∧
      (remainingIn a us = [] ∧ matchInUnits t abandoned us = (none, t', abandoned') ∨
        ∃ m rest, remainingIn a us = m :: remainingIn a rest ∧
          matchInUnits t abandoned us = (some (m, rest), t', abandoned')) := by
  induction us generalizing t abandoned with
  | nil => exact ⟨t, abandoned, ht, .inl ⟨rfl, rfl⟩⟩
  | cons u us ih =>
    rw [show remainingIn a (u :: us) = remaining a u ++ remainingIn a us from List.flatMap_cons]
    obtain ⟨t', abandoned', ht', ⟨hnil, hnone⟩ | ⟨f, hpos, hcons, hsome⟩⟩ :=
      firstMatch_spec ht u.bytes abandoned u.cursor.pos
    · rw [matchInUnits_of_none hnone, remaining, hnil]
      exact ih ht' abandoned'
    · rw [matchInUnits_of_some hsome]
      refine ⟨t', abandoned', ht', .inr ⟨_, _, ?_, rfl⟩⟩
      rw [remaining_of_foundsFrom hpos hcons]
      rfl

end ScanUnit

/-! ## Steps of a scan -/

namespace Scan

/-- The matches that a scan will still report. -/
def remaining (a : Automaton) (s : Scan) : List Match :=
  if s.global then ScanUnit.remainingIn a s.units else (ScanUnit.remainingIn a s.units).take 1

/-- **A step reports the head of what is left, and leaves the rest.** -/
theorem next_spec (ht : s.attempter.Ready a searchDepthLimit) :
    s.next.1.found = (s.remaining a).head? ∧ s.next.2.remaining a = (s.remaining a).tail ∧
      s.next.2.attempter.Ready a searchDepthLimit := by
  obtain ⟨t, global, units⟩ := s
  obtain ⟨t', abandoned', ht', ⟨hnil, hnone⟩ | ⟨m, rest, hcons, hsome⟩⟩ :=
    ScanUnit.matchInUnits_spec ht #[] units
  · simp only [next, hnone, remaining, hnil]
    cases global <;> exact ⟨rfl, rfl, ht'⟩
  · simp only [next, hsome, remaining, hcons]
    cases global <;> exact ⟨rfl, rfl, ht'⟩

/-- **The reports of a number of steps are the matches that are left, in order, and nothing after
the last one.** -/
theorem found_steps (ht : s.attempter.Ready a searchDepthLimit) (n : Nat) :
    (steps n s).map (·.found) = (List.range n).map ((s.remaining a)[·]?) := by
  induction n generalizing s with
  | zero => rfl
  | succ n ih =>
    obtain ⟨hfound, hrest, ht'⟩ := next_spec ht
    rw [steps, List.map_cons, ih ht', hfound, hrest, List.range_succ_eq_map, List.map_cons,
      List.map_map, List.head?_eq_getElem?]
    refine congrArg _ (List.map_congr_left fun i _ => ?_)
    rw [List.getElem?_tail]
    rfl

theorem ready_new {buffer : Buffer} {global multiline : Bool} :
    (new a buffer global multiline).attempter.Ready a searchDepthLimit :=
  Attempter.ready_new a searchDepthLimit

theorem collect_eq (ht : s.attempter.Ready a searchDepthLimit) (found : Array Match)
    (abandoned : Array Nat) :
    (s.collect found abandoned).1.toList = found.toList ++ s.remaining a := by
  fun_induction collect s found abandoned with
  | case1 s found abandoned m given s' hs ih =>
    obtain ⟨hfound, hrest, ht'⟩ := next_spec ht
    rw [hs] at hfound hrest ht'
    obtain ⟨rest, hcons⟩ := List.head?_eq_some_iff.mp hfound.symm
    rw [ih ht', hrest, hcons, Array.toList_push, List.append_assoc]
    rfl
  | case2 s found abandoned given s' hs =>
    obtain ⟨hfound, -, -⟩ := next_spec ht
    rw [hs] at hfound
    rw [List.head?_eq_none_iff.mp hfound.symm, List.append_nil]

theorem allMatches_eq (ht : s.attempter.Ready a searchDepthLimit) :
    s.allMatches.toList = s.remaining a :=
  collect_eq ht #[] #[]

theorem units_of_next_eq_none (h : s.next.1.found = none) : s.next.2.units = [] := by
  obtain ⟨t, global, units⟩ := s
  simp only [next] at h ⊢
  split
  · rfl
  · next m rest t' abandoned hm =>
    rw [hm] at h
    cases h

theorem found_steps_of_units_eq_nil (h : s.units = []) (n : Nat) :
    (steps n s).map (·.found) = List.replicate n none := by
  obtain ⟨t, global, units⟩ := s
  obtain rfl : units = [] := h
  induction n with
  | zero => rfl
  | succ n ih => exact congrArg (none :: ·) ih

/-- After a step without a match no step has one, whatever state the scan is in. -/
theorem found_steps_of_next_eq_none (h : s.next.1.found = none) (n : Nat) :
    (steps n s.next.2).map (·.found) = List.replicate n none :=
  found_steps_of_units_eq_nil (units_of_next_eq_none h) n

end Scan

end ByteRegex
