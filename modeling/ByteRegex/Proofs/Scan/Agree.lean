import ByteRegex.Proofs.Scan.Place
import ByteRegex.Proofs.Search.Slice

/-!
# Scanning line by line, or all at once

To an automaton that can neither read a newline nor test an anchor it is the same whether it
searches a line by itself or in its buffer. So the matches of the buffer are those of its lines, one
line after another (`foundsFrom_pos_eq`). There is one difference: a buffer that ends in a newline
has no line after it, but an offset behind it, at which the automaton can match nothing but the
empty text.

Main statement: the two ways of scanning report the same matches, with the same lines and columns,
but for that one (`Scan.matches_eq_of_newlineBlind`).
-/

namespace ByteRegex

variable {a : Automaton} {buffer : Buffer} {l : Line} {m : Match}
  {longest part : Nat → Option Nat} {base n last pos : Nat}

/-! ## Matches in a part of a buffer -/

/-- A match that is found behind a place. -/
def Found.shift (base : Nat) (f : Found) : Found := ⟨base + f.offset, f.length⟩

/-- If the longest matches in a part are those of the part by itself, so are the matches. -/
theorem foundsFrom_append (hlast : base + n ≤ last)
    (hpart : ∀ p ≤ n, longest (base + p) = part p)
    (hfinish : ∀ p length, part p = some length → p + length ≤ n) (hpos : pos ≤ n + 1) :
    foundsFrom longest last (base + pos) =
      (foundsFrom part n pos).map (Found.shift base) ++ foundsFrom longest last (base + n + 1) := by
  fun_induction foundsFrom part n pos with
  | case1 pos hle length hlength ih =>
    have hend := hfinish pos length hlength
    rw [foundsFrom_of_some (by omega) ((hpart pos hle).trans hlength), Nat.add_assoc,
      ih (by omega)]
    rfl
  | case2 pos hle hnone ih =>
    rw [foundsFrom_of_none (by omega) ((hpart pos hle).trans hnone), Nat.add_assoc, ih (by omega)]
  | case3 pos hgt =>
    obtain rfl : pos = n + 1 := by omega
    rfl

namespace Automaton

/-- The matches from a line on are those of the line, and those behind the newline after it. -/
theorem foundsFrom_line (ha : a.NewlineBlind) (h : l.Within buffer) (hends : l.EndsIn buffer) :
    a.foundsFrom buffer l.offset = (a.foundsFrom l.bytes 0).map (Found.shift l.offset) ++
      a.foundsFrom buffer (l.offset + l.bytes.size + 1) :=
  foundsFrom_append h.finish_le
    (fun _ hp => congrArg Attempt.length (h.longestMatch_eq ha hends hp))
    (fun _ _ hlength => longestMatch_le hlength) (Nat.zero_le _)

/-- The matches of lines, where the lines are in their buffer. -/
def foundsInLines (a : Automaton) (ls : List Line) : List Found :=
  ls.flatMap fun l => (a.foundsFrom l.bytes 0).map (Found.shift l.offset)

end Automaton

/-! ## All lines -/

/-- If a line is the rest of a buffer, the buffer does not end in a newline. -/
theorem Line.Within.back?_ne_newline (h : l.Within buffer)
    (hend : l.offset + l.bytes.size = buffer.size)
    (hempty : l.offset = buffer.size → buffer.back? ≠ some Byte.newline) :
    buffer.back? ≠ some Byte.newline := by
  by_cases hsize : l.bytes.size = 0
  · exact hempty (by omega)
  · intro hback
    refine h.newline_not_mem (Array.mem_of_getElem? (i := l.bytes.size - 1) ?_)
    rw [h.getElem?_bytes (by omega), ← hback, Array.back?_eq_getElem?]
    congr 1
    omega

/-- **The matches of a buffer are those of its lines**, and those at the end of the buffer if it
ends in a newline. -/
theorem foundsFrom_pos_eq (ha : a.NewlineBlind) (ls : Lines) (hopen : ls.done = false)
    (hpos : ls.pos ≤ ls.buffer.size)
    (hempty : ls.pos = ls.buffer.size → ls.buffer.back? ≠ some Byte.newline) :
    a.foundsFrom ls.buffer ls.pos = a.foundsInLines ls.toList ++
      if ls.buffer.back? = some Byte.newline then a.foundsFrom ls.buffer ls.buffer.size
      else [] := by
  fun_induction Lines.toList ls with
  | case1 ls line rest hnext ih =>
    obtain ⟨hwithin, hbuffer, hrest⟩ := Lines.within_of_next? hnext hpos
    obtain ⟨hoffset, hmore⟩ := Lines.pos_of_next? hnext hpos
    rw [← hoffset] at hempty ⊢
    rw [Automaton.foundsInLines, List.flatMap_cons, List.append_assoc]
    rcases hmore with ⟨hdone, hend⟩ | ⟨hnextpos, hdone, hnewline⟩
    · -- the last line, without a newline behind it
      rw [a.foundsFrom_line ha hwithin (.inl hend), hend, Lines.toList_of_done hdone,
        if_neg (hwithin.back?_ne_newline hend hempty)]
      exact congrArg _ (foundsFrom_of_lt (Nat.lt_succ_self _))
    · rw [a.foundsFrom_line ha hwithin (.inr hnewline), ← hnextpos]
      refine congrArg _ ?_
      by_cases hfull : rest.pos = ls.buffer.size
      · -- the last line, with a newline at the end of the buffer
        have hback : ls.buffer.back? = some Byte.newline := by
          rw [Array.back?_eq_getElem?, ← hnewline]
          congr 1
          omega
        rw [Lines.toList_of_done (by simp [hdone, hfull]), if_pos hback, hfull]
        rfl
      · rw [← hbuffer] at hfull ⊢
        exact ih (by simp [hdone, ← hbuffer, hfull]) hrest fun h => absurd h hfull
  | case2 ls hnone =>
    -- a line is left
    rw [Lines.next?, if_neg (by simp [hopen])] at hnone
    split at hnone <;> cases hnone

/-! ## Places -/

/-- A match that is in its place is the one that is reported for a scan of the whole buffer. -/
theorem Match.PlacedIn.eq_report (hm : m.PlacedIn buffer) (hle : m.offset ≤ buffer.size) :
    (ScanUnit.whole buffer).report m.toFound = m := by
  obtain ⟨offset, length, line, column⟩ := m
  have hplace : buffer.Locates offset ((Cursor.start 1).advance buffer offset).line
    ((Cursor.start 1).advance buffer offset).column := Cursor.locates_advance hle
  obtain ⟨hline, hcolumn⟩ := hplace.unique hm
  show Match.mk (0 + offset) length ((Cursor.start 1).advance buffer (offset - 0)).line
    ((Cursor.start 1).advance buffer (offset - 0)).column = _
  rw [Nat.zero_add, Nat.sub_zero, hline, hcolumn]

theorem Automaton.map_toFound_matchesInLines (number : Nat) (ls : List Line) :
    (a.matchesInLines number ls).map Match.toFound = a.foundsInLines ls := by
  induction ls generalizing number with
  | nil => rfl
  | cons l ls ih =>
    have hline : ((a.matchesIn l.bytes).map (Match.inLine l number)).map Match.toFound =
        (a.foundsFrom l.bytes 0).map (Found.shift l.offset) := by
      rw [← Automaton.map_toFound_matchesIn, List.map_map, List.map_map]
      rfl
    rw [matchesInLines, List.zipIdx_cons, List.flatMap_cons, List.map_append, hline]
    exact congrArg _ (ih _)

/-- The end of a buffer that ends in a newline is the start of a line. -/
theorem Buffer.locates_size (h : buffer.back? = some Byte.newline) :
    buffer.Locates buffer.size (buffer.newlineCount + 1) 1 where
  line_eq := by
    rw [Buffer.newlineCount, ← Array.count_toList, ← Array.length_toList, List.take_length,
      Nat.add_comm]
  column_eq := by
    refine ⟨buffer.size, ⟨⟨Nat.le_refl _, .inr ?_⟩, fun i hi => hi.1⟩, by omega⟩
    rw [← Array.back?_eq_getElem?, h]

/-- At the end of a buffer nothing but the empty text can match. -/
theorem Automaton.foundsFrom_size :
    a.foundsFrom buffer buffer.size =
      if (a.lengthAt buffer buffer.size).isSome then [⟨buffer.size, 0⟩] else [] := by
  have hbehind : ∀ n, buffer.size < n → a.foundsFrom buffer n = [] := fun n => foundsFrom_of_lt
  cases hlength : a.lengthAt buffer buffer.size with
  | none => exact (foundsFrom_of_none (Nat.le_refl _) hlength).trans (hbehind _ (by omega))
  | some length =>
    have hle := longestMatch_le hlength
    obtain rfl : length = 0 := by omega
    refine (foundsFrom_of_some (Nat.le_refl _) hlength).trans ?_
    exact congrArg _ (hbehind _ (by omega))

namespace Scan

/-- **Scanning line by line finds the same as scanning all at once**, if no label tests an anchor or
reads a newline: the same matches, with the same lines and columns, in the same order. Only if the
buffer ends in a newline is there an offset that no line has; what matches there is reported last by
the scan of the whole buffer. -/
theorem matches_eq_of_newlineBlind (ha : a.NewlineBlind) (buffer : Buffer) :
    (new a buffer true false).allMatches.toList =
      (new a buffer true true).allMatches.toList ++
        if buffer.back? = some Byte.newline ∧ (a.lengthAt buffer buffer.size).isSome then
          [⟨buffer.size, 0, buffer.newlineCount + 1, 1⟩]
        else [] := by
  have hlines : (new a buffer true true).allMatches.toList =
      a.matchesInLines 1 (Lines.ofBuffer buffer).toList :=
    (allMatches_eq ready_new).trans (remaining_new_lines true)
  have hreport : (a.foundsInLines (Lines.ofBuffer buffer).toList).map
      (ScanUnit.whole buffer).report = a.matchesInLines 1 (Lines.ofBuffer buffer).toList := by
    rw [← Automaton.map_toFound_matchesInLines 1, List.map_map]
    refine (List.map_congr_left fun m hm => ?_).trans (List.map_id _)
    obtain ⟨l, hl, -, hfinish, -⟩ := Automaton.exists_line_of_mem hm
    have hle := (Lines.within_of_mem_ofBuffer hl).finish_le
    rw [Match.finish] at hfinish
    exact (Automaton.placedIn_of_mem_matchesInLines hm).eq_report (by omega)
  have hfounds : a.foundsFrom buffer 0 = a.foundsInLines (Lines.ofBuffer buffer).toList ++
      if buffer.back? = some Byte.newline then a.foundsFrom buffer buffer.size else [] :=
    foundsFrom_pos_eq ha (.ofBuffer buffer) rfl (Nat.zero_le _) fun h hback => by
      obtain rfl : buffer = #[] := Array.size_eq_zero_iff.mp h.symm
      cases hback
  rw [hlines, ← Automaton.matchesIn, Automaton.matchesIn_eq, hfounds, List.map_append, hreport]
  refine congrArg _ ?_
  by_cases hback : buffer.back? = some Byte.newline
  · have hend : (ScanUnit.whole buffer).report ⟨buffer.size, 0⟩ =
        ⟨buffer.size, 0, buffer.newlineCount + 1, 1⟩ :=
      Match.PlacedIn.eq_report (m := ⟨buffer.size, 0, buffer.newlineCount + 1, 1⟩)
        (Buffer.locates_size hback) (Nat.le_refl _)
    rw [if_pos hback, Automaton.foundsFrom_size]
    by_cases hsome : (a.lengthAt buffer buffer.size).isSome = true
    · rw [if_pos hsome, if_pos ⟨hback, hsome⟩, List.map_singleton, hend]
    · rw [if_neg hsome, if_neg fun h => hsome h.2]
      rfl
  · rw [if_neg hback, if_neg fun h => hback h.1]
    rfl

/-- The pattern `a*` on a line of one letter: only a scan of the whole buffer comes to the offset
behind the newline. -/
theorem matches_eq_of_newlineBlind_star :
    ∃ a : Automaton, a.NewlineBlind ∧
      (new a #[0x61, 0x0A] true true).allMatches.toList = [⟨0, 1, 1, 1⟩, ⟨1, 0, 1, 2⟩] ∧
      (new a #[0x61, 0x0A] true false).allMatches.toList =
        [⟨0, 1, 1, 1⟩, ⟨1, 0, 1, 2⟩, ⟨2, 0, 2, 1⟩] := by
  let a : Automaton := ⟨#[[⟨1, .byte 0x61⟩], [⟨1, .byte 0x61⟩], [⟨1, .byte 0x61⟩], []], ⟨#[13]⟩,
    ⟨#[14]⟩, #[]⟩
  have hlabels : ∀ s < 4, ∀ e ∈ a.edges s, e.label = .byte 0x61 := by decide
  have ha : a.NewlineBlind := by
    intro s e he
    rw [hlabels s (Automaton.lt_stateCount_of_mem_edges he) e he]
    exact ⟨fun x => Label.noConfusion, by decide⟩
  have hnext : (Lines.ofBuffer #[0x61, 0x0A]).next? =
      some (⟨0, #[0x61]⟩, ⟨#[0x61, 0x0A], 2, true⟩) := by cbv
  have hlines : (new a #[0x61, 0x0A] true true).allMatches.toList =
      [⟨0, 1, 1, 1⟩, ⟨1, 0, 1, 2⟩] := by
    rw [allMatches_eq ready_new, remaining_new_lines, Lines.toList_of_next? hnext,
      Lines.toList_of_done rfl]
    show (a.matchesIn #[0x61]).map (Match.inLine ⟨0, #[0x61]⟩ 1) ++ [] = _
    rw [Automaton.matchesIn_eq]
    cbv
  have hlast : (a.lengthAt #[0x61, 0x0A] 2).isSome = true := by cbv
  refine ⟨a, ha, hlines, ?_⟩
  rw [matches_eq_of_newlineBlind ha, hlines, if_pos ⟨rfl, hlast⟩]
  rfl

end Scan

end ByteRegex
