import ByteRegex.Proofs.Buffer.Partition
import ByteRegex.Scan

/-!
# Scanning lines as they are read

`Scan` has the units of its buffer at hand, and jumps with a cursor from match to match. A scan can
do with less (`StreamScan`): the cursor moves on at each offset without a match; or a line is read
only when the one before it is done, its number is a count of the lines so far, and the column of a
match is its place in the line.

Both report the same, call by call (`StreamScan.steps_eq`). What relates them is that a line has no
newline, so the cursor of its unit stays on it and counts its bytes (`OpenLine.HasCursor`).
-/

namespace ByteRegex

/-- The line that is being scanned. -/
structure OpenLine where
  base : Nat
  bytes : Buffer
  /-- Where the next attempt is made in the line. -/
  pos : Nat
  number : Nat

/-- What is still to be scanned. -/
inductive StreamMode where
  | whole (cursor : Cursor)
  | lines (ls : Lines) (current : Option OpenLine) (count : Nat)

/-- A scan in progress that reads lines one by one. -/
structure StreamScan where
  attempter : Attempter
  buffer : Buffer
  global : Bool
  mode : StreamMode
  done : Bool

namespace StreamScan

/-! ## The scan -/

/-- The next match in a whole buffer, from a cursor on. -/
def nextInWhole (t : Attempter) (buffer : Buffer) (abandoned : Array Nat) (c : Cursor) :
    Option Match × Attempter × Array Nat × Cursor :=
  if c.pos ≤ buffer.size then
    match t.longestMatch buffer c.pos with
    | (⟨some length, given⟩, t) =>
      (some ⟨c.pos, length, c.line, c.column⟩, t, abandoned ++ given,
        c.advance buffer (max length 1))
    | (⟨none, given⟩, t) => nextInWhole t buffer (abandoned ++ given) (c.advance buffer 1)
  else (none, t, abandoned, c)
termination_by buffer.size + 1 - c.pos
decreasing_by rw [Cursor.pos_advance]; omega

/-- The next match in a line. -/
def nextInLine (t : Attempter) (abandoned : Array Nat) (u : OpenLine) :
    Option Match × Attempter × Array Nat × OpenLine :=
  if u.pos ≤ u.bytes.size then
    match t.longestMatch u.bytes u.pos with
    | (⟨some length, given⟩, t) =>
      (some ⟨u.base + u.pos, length, u.number, u.pos + 1⟩, t, abandoned ++ given,
        { u with pos := u.pos + max length 1 })
    | (⟨none, given⟩, t) => nextInLine t (abandoned ++ given) { u with pos := u.pos + 1 }
  else (none, t, abandoned, u)
termination_by u.bytes.size + 1 - u.pos

/-- The next match in the current line or in one that is read after it. -/
def nextInLines (t : Attempter) (abandoned : Array Nat) (ls : Lines) (current : Option OpenLine)
    (count : Nat) : Option Match × Attempter × Array Nat × Lines × Option OpenLine × Nat :=
  match current with
  | some u =>
    match nextInLine t abandoned u with
    | (some m, t, abandoned, u) => (some m, t, abandoned, ls, some u, count)
    | (none, t, abandoned, _) => nextInLines t abandoned ls none count
  | none =>
    match _h : ls.next? with
    | some (l, rest) =>
      nextInLines t abandoned rest (some ⟨l.offset, l.bytes, 0, count + 1⟩) (count + 1)
    | none => (none, t, abandoned, ls, none, count)
termination_by (ls.remaining, if current.isSome then 1 else 0)
decreasing_by
  · exact Prod.Lex.right _ Nat.zero_lt_one
  · exact Prod.Lex.left _ _ (Lines.remaining_next?_lt _h)

/-- A scan of a buffer. -/
def new (a : Automaton) (buffer : Buffer) (global multiline : Bool) : StreamScan :=
  { attempter := .new a searchDepthLimit
    buffer
    global
    mode := if multiline then .lines (.ofBuffer buffer) none 0 else .whole (.start 1)
    done := false }

/-- The next match, and what is still to be scanned after it. -/
def nextInMode (t : Attempter) (buffer : Buffer) :
    StreamMode → Option Match × Attempter × Array Nat × StreamMode
  | .whole c =>
    let (found, t, abandoned, c) := nextInWhole t buffer #[] c
    (found, t, abandoned, .whole c)
  | .lines ls current count =>
    let (found, t, abandoned, ls, current, count) := nextInLines t #[] ls current count
    (found, t, abandoned, .lines ls current count)

/-- The next match, if there is one, and the rest of the scan. It is done after a call without a
match, and unless it is global also after one with a match. -/
def next (s : StreamScan) : Report × StreamScan :=
  if s.done then (⟨none, #[]⟩, s)
  else
    let (found, t, abandoned, mode) := nextInMode s.attempter s.buffer s.mode
    (⟨found, abandoned⟩, { s with attempter := t, mode, done := found.isNone || !s.global })

/-- The reports of a number of calls. -/
def steps : Nat → StreamScan → List Report
  | 0, _ => []
  | n + 1, s =>
    let (report, s) := s.next
    report :: steps n s

end StreamScan

variable {t : Attempter} {buffer : Buffer} {abandoned : Array Nat} {c : Cursor} {u : OpenLine}
  {ls : Lines} {current : Option OpenLine} {count : Nat}

/-! ## Whole buffers -/

namespace StreamScan

/-- **Moving on at each offset finds what a jump to the next match finds**, with the same line and
column. -/
theorem nextInWhole_spec (t : Attempter) (buffer : Buffer) (abandoned : Array Nat) (c : Cursor) :
    ∃ t' abandoned',
      firstMatch t buffer abandoned c.pos = (none, t', abandoned') ∧
          (∃ c', nextInWhole t buffer abandoned c = (none, t', abandoned', c')) ∨
        ∃ f, firstMatch t buffer abandoned c.pos = (some f, t', abandoned') ∧
          nextInWhole t buffer abandoned c =
            (some ⟨f.offset, f.length, (c.advance buffer (f.offset - c.pos)).line,
              (c.advance buffer (f.offset - c.pos)).column⟩, t', abandoned',
              (c.advance buffer (f.offset - c.pos)).advance buffer (max f.length 1)) := by
  fun_induction nextInWhole t buffer abandoned c with
  | case1 t abandoned c hle length given t' hfound =>
    refine ⟨t', abandoned ++ given, .inr ⟨⟨c.pos, length⟩, ?_, ?_⟩⟩
    · rw [firstMatch, if_pos hle, hfound]
    · rw [Nat.sub_self, Cursor.advance_zero]
  | case2 t abandoned c hle given t' hnone ih =>
    have hfirst : firstMatch t buffer abandoned c.pos =
        firstMatch t' buffer (abandoned ++ given) (c.advance buffer 1).pos := by
      rw [firstMatch, if_pos hle, hnone, Cursor.pos_advance]
    rw [hfirst]
    obtain ⟨t'', abandoned', ⟨hf, hc⟩ | ⟨f, hf, hc⟩⟩ := ih
    · exact ⟨t'', abandoned', .inl ⟨hf, hc⟩⟩
    · have hbounds := firstMatch_bounds hf
      rw [Cursor.pos_advance] at hbounds hc
      have hcount : 1 + (f.offset - (c.pos + 1)) = f.offset - c.pos := by omega
      rw [Cursor.advance_advance (by omega), hcount] at hc
      exact ⟨t'', abandoned', .inr ⟨f, hf, hc⟩⟩
  | case3 t abandoned c hle =>
    refine ⟨t, abandoned, .inl ⟨?_, c, rfl⟩⟩
    rw [firstMatch, if_neg hle]

/-! ## Lines -/

/-- The next match of a line is at the first offset that has one. -/
theorem nextInLine_spec (t : Attempter) (abandoned : Array Nat) (u : OpenLine) :
    ∃ t' abandoned',
      firstMatch t u.bytes abandoned u.pos = (none, t', abandoned') ∧
          (∃ u', nextInLine t abandoned u = (none, t', abandoned', u')) ∨
        ∃ f, firstMatch t u.bytes abandoned u.pos = (some f, t', abandoned') ∧
          nextInLine t abandoned u =
            (some ⟨u.base + f.offset, f.length, u.number, f.offset + 1⟩, t', abandoned',
              { u with pos := f.offset + max f.length 1 }) := by
  fun_induction nextInLine t abandoned u with
  | case1 t abandoned u hle length given t' hfound =>
    refine ⟨t', abandoned ++ given, .inr ⟨⟨u.pos, length⟩, ?_, rfl⟩⟩
    rw [firstMatch, if_pos hle, hfound]
  | case2 t abandoned u hle given t' hnone ih =>
    have hfirst : firstMatch t u.bytes abandoned u.pos =
        firstMatch t' u.bytes (abandoned ++ given) (u.pos + 1) := by
      rw [firstMatch, if_pos hle, hnone]
    rw [hfirst]
    exact ih
  | case3 t abandoned u hle =>
    refine ⟨t, abandoned, .inl ⟨?_, u, rfl⟩⟩
    rw [firstMatch, if_neg hle]

end StreamScan

/-- A cursor is at the same place of a line as its scan, and on the line while it is in it. -/
structure OpenLine.HasCursor (u : OpenLine) (c : Cursor) : Prop where
  pos_eq : c.pos = u.pos
  cursor_eq : u.pos ≤ u.bytes.size → c = ⟨u.pos, u.number, u.pos + 1⟩
  newline_not_mem : Byte.newline ∉ u.bytes

/-- The cursor moves on with the scan of its line. -/
theorem OpenLine.HasCursor.advance (h : u.HasCursor c) (count : Nat) :
    { u with pos := u.pos + count : OpenLine }.HasCursor (c.advance u.bytes count) where
  pos_eq := by rw [Cursor.pos_advance, h.pos_eq]
  cursor_eq hle := by
    have hle : u.pos + count ≤ u.bytes.size := hle
    rw [h.cursor_eq (by omega), Cursor.advance_of_not_mem h.newline_not_mem hle, Nat.add_right_comm]
  newline_not_mem := h.newline_not_mem

/-- The unit of a line finds the match that is found in the line, at the same place, and goes on
where the line does. -/
theorem OpenLine.HasCursor.matchInUnits_eq {t' : Attempter} {abandoned' : Array Nat} {f : Found}
    (h : u.HasCursor c)
    (hf : firstMatch t u.bytes abandoned u.pos = (some f, t', abandoned')) (us : List ScanUnit) :
    ∃ c', { u with pos := f.offset + max f.length 1 : OpenLine }.HasCursor c' ∧
      matchInUnits t abandoned (⟨u.base, u.bytes, c⟩ :: us) =
        (some (⟨u.base + f.offset, f.length, u.number, f.offset + 1⟩,
          ⟨u.base, u.bytes, c'⟩ :: us), t', abandoned') := by
  obtain ⟨hle, hsize⟩ := firstMatch_bounds hf
  have hhere := h.advance (f.offset - u.pos)
  rw [Nat.add_sub_of_le hle] at hhere
  have hcursor : c.advance u.bytes (f.offset - u.pos) = ⟨f.offset, u.number, f.offset + 1⟩ :=
    hhere.cursor_eq hsize
  have hfound : firstMatch t u.bytes abandoned c.pos = (some f, t', abandoned') := by
    rw [h.pos_eq, hf]
  refine ⟨_, hhere.advance (max f.length 1), ?_⟩
  simp only [matchInUnits_of_some (u := ⟨u.base, u.bytes, c⟩) hfound, h.pos_eq, hcursor]

/-- What is still to be scanned is some units. The lines that are not read yet are units behind the
current line. -/
inductive StreamMode.AreUnits (buffer : Buffer) : StreamMode → List ScanUnit → Prop where
  | whole (c : Cursor) : AreUnits buffer (.whole c) [⟨0, buffer, c⟩]
  | unread {ls : Lines} {count : Nat} : ls.pos ≤ ls.buffer.size →
    AreUnits buffer (.lines ls none count) (ScanUnit.ofLines (count + 1) ls.toList)
  | current {ls : Lines} {u : OpenLine} {c : Cursor} {count : Nat} : u.HasCursor c →
    ls.pos ≤ ls.buffer.size →
    AreUnits buffer (.lines ls (some u) count)
      (⟨u.base, u.bytes, c⟩ :: ScanUnit.ofLines (count + 1) ls.toList)

namespace StreamScan

open StreamMode (AreUnits)

/-- **Reading lines one by one finds what is found in their units.** -/
theorem nextInLines_spec {us : List ScanUnit} (h : AreUnits buffer (.lines ls current count) us) :
    ∃ t' abandoned' ls' current' count',
      matchInUnits t abandoned us = (none, t', abandoned') ∧
          nextInLines t abandoned ls current count =
            (none, t', abandoned', ls', current', count') ∨
        ∃ m rest, matchInUnits t abandoned us = (some (m, rest), t', abandoned') ∧
          nextInLines t abandoned ls current count =
            (some m, t', abandoned', ls', current', count') ∧
          AreUnits buffer (.lines ls' current' count') rest := by
  fun_induction nextInLines t abandoned ls current count generalizing us with
  | case1 t abandoned ls count u m t' abandoned' u' hline =>
    cases h with
    | current hu hls =>
      obtain ⟨t₁, abandoned₁, ⟨-, u₁, hnone⟩ | ⟨f, hf, hsome⟩⟩ := nextInLine_spec t abandoned u
      · cases hline.symm.trans hnone
      · cases hline.symm.trans hsome
        obtain ⟨c', hc', hunits⟩ := hu.matchInUnits_eq hf (ScanUnit.ofLines (count + 1) ls.toList)
        exact ⟨_, _, _, _, _, .inr ⟨_, _, hunits, rfl, .current hc' hls⟩⟩
  | case2 t abandoned ls count u t' abandoned' u' hline ih =>
    cases h with
    | @current _ _ c _ hu hls =>
      obtain ⟨t₁, abandoned₁, ⟨hf, u₁, hnone⟩ | ⟨f, -, hsome⟩⟩ := nextInLine_spec t abandoned u
      · cases hline.symm.trans hnone
        have hnone : firstMatch t u.bytes abandoned c.pos = (none, t', abandoned') := by
          rw [hu.pos_eq, hf]
        rw [matchInUnits_of_none (u := ⟨u.base, u.bytes, c⟩) hnone]
        exact ih (.unread hls)
      · cases hline.symm.trans hsome
  | case3 t abandoned ls count l rest hnext ih =>
    cases h with
    | unread hls =>
      obtain ⟨hwithin, -, hrest⟩ := Lines.within_of_next? hnext hls
      rw [Lines.toList_of_next? hnext]
      exact ih (.current ⟨rfl, fun _ => rfl, hwithin.newline_not_mem⟩ hrest)
  | case4 t abandoned ls count hnext =>
    cases h with
    | unread hls =>
      rw [Lines.toList_of_next?_eq_none hnext]
      exact ⟨t, abandoned, ls, none, count, .inl ⟨rfl, rfl⟩⟩

/-- The next match is the next one of the units. -/
theorem nextInMode_spec {mode : StreamMode} {us : List ScanUnit} (h : mode.AreUnits buffer us)
    (t : Attempter) :
    ∃ t' abandoned' mode',
      matchInUnits t #[] us = (none, t', abandoned') ∧
          nextInMode t buffer mode = (none, t', abandoned', mode') ∨
        ∃ m rest, matchInUnits t #[] us = (some (m, rest), t', abandoned') ∧
          nextInMode t buffer mode = (some m, t', abandoned', mode') ∧
          mode'.AreUnits buffer rest := by
  cases mode with
  | whole c =>
    cases h
    obtain ⟨t', abandoned', ⟨hf, c', hnext⟩ | ⟨f, hf, hnext⟩⟩ := nextInWhole_spec t buffer #[] c
    · refine ⟨t', abandoned', .whole c', .inl ⟨?_, ?_⟩⟩
      · exact matchInUnits_of_none (u := ⟨0, buffer, c⟩) hf []
      · rw [nextInMode, hnext]
    · let here := c.advance buffer (f.offset - c.pos)
      let behind := here.advance buffer (max f.length 1)
      refine ⟨t', abandoned', .whole behind, .inr ⟨⟨f.offset, f.length, here.line, here.column⟩,
        [⟨0, buffer, behind⟩], ?_, ?_, .whole behind⟩⟩
      · rw [matchInUnits_of_some (u := ⟨0, buffer, c⟩) hf, Nat.zero_add]
      · rw [nextInMode, hnext]
  | lines ls current count =>
    obtain ⟨t', abandoned', ls', current', count',
      ⟨hmatch, hnext⟩ | ⟨m, rest, hmatch, hnext, hrest⟩⟩ := nextInLines_spec h
    · refine ⟨t', abandoned', .lines ls' current' count', .inl ⟨hmatch, ?_⟩⟩
      rw [nextInMode, hnext]
    · refine ⟨t', abandoned', .lines ls' current' count', .inr ⟨m, rest, hmatch, ?_, hrest⟩⟩
      rw [nextInMode, hnext]

/-! ## Calls -/

/-- A scan that reads lines and one that has its units are at the same point. -/
structure Agrees (s : StreamScan) (r : Scan) : Prop where
  attempter_eq : s.attempter = r.attempter
  global_eq : s.global = r.global
  units : if s.done then r.units = [] else s.mode.AreUnits s.buffer r.units

theorem agrees_new (a : Automaton) (buffer : Buffer) (global multiline : Bool) :
    (new a buffer global multiline).Agrees (.new a buffer global multiline) where
  attempter_eq := rfl
  global_eq := rfl
  units := by
    cases multiline
    · exact .whole (.start 1)
    · exact .unread (Nat.zero_le _)

/-- **Scans at the same point report the same, and are at the same point again.** -/
theorem Agrees.next {s : StreamScan} {r : Scan} (h : s.Agrees r) :
    s.next.1 = r.next.1 ∧ s.next.2.Agrees r.next.2 := by
  obtain ⟨t, buffer, global, mode, done⟩ := s
  obtain ⟨t', global', units⟩ := r
  obtain ⟨ht, hglobal, hunits⟩ := h
  obtain rfl : t = t' := ht
  obtain rfl : global = global' := hglobal
  cases done with
  | true =>
    obtain rfl : units = [] := hunits
    exact ⟨rfl, rfl, rfl, rfl⟩
  | false =>
    obtain ⟨t', abandoned', mode', ⟨hmatch, hnext⟩ | ⟨m, rest, hmatch, hnext, hrest⟩⟩ :=
      nextInMode_spec hunits t
    · rw [StreamScan.next, if_neg Bool.false_ne_true, hnext, Scan.next, hmatch]
      exact ⟨rfl, rfl, rfl, rfl⟩
    · rw [StreamScan.next, if_neg Bool.false_ne_true, hnext, Scan.next, hmatch]
      -- a scan that is not global is over after its first match
      cases global with
      | false => exact ⟨rfl, rfl, rfl, rfl⟩
      | true => exact ⟨rfl, rfl, rfl, hrest⟩

/-- **Reading lines as they come reports the same**, call by call. -/
theorem steps_eq (a : Automaton) (buffer : Buffer) (global multiline : Bool) (n : Nat) :
    (new a buffer global multiline).steps n = (Scan.new a buffer global multiline).steps n := by
  have hsteps : ∀ (n : Nat) (s : StreamScan) (r : Scan), s.Agrees r → s.steps n = r.steps n := by
    intro n
    induction n with
    | zero => exact fun _ _ _ => rfl
    | succ n ih =>
      intro s r h
      obtain ⟨hreport, hnext⟩ := h.next
      exact congrArg₂ List.cons hreport (ih _ _ hnext)
  exact hsteps n _ _ (agrees_new a buffer global multiline)

end StreamScan

end ByteRegex
