import ByteRegex.Buffer.Cursor
import ByteRegex.Search.Attempt

/-!
# Scanning a buffer

A scan reports the matches in a buffer one after another, from left to right: at each offset the
longest match, and the next one no earlier than where that one ends. A match of no bytes moves
the scan by one byte.

The buffer is scanned unit by unit. As a whole it is one unit; in multiline scanning each line is
a unit, which is a buffer of its own for the anchors. A unit knows where it starts and the number
of its first line, so that a match can be reported with its place in the whole buffer. A scan that
reads its lines only when it comes to them reports the same (`StreamScan.steps_eq`).

`Scan.left` bounds the number of attempts that are left. Each match lowers it, so a scan has
finitely many matches (`left_next_lt`).
-/

namespace ByteRegex

/-! ## Matches -/

/-- A match: its offset and length in bytes, and the line and column at which it starts. -/
structure Match where
  offset : Nat
  length : Nat
  line : Nat
  column : Nat
deriving DecidableEq

/-- The offset just past a match. -/
def Match.finish (m : Match) : Nat := m.offset + m.length

/-! ## Units -/

/-- A part of a buffer that is scanned by itself. -/
structure ScanUnit where
  /-- The offset of the unit in the whole buffer. -/
  base : Nat
  bytes : Buffer
  /-- Where the next attempt is made. -/
  cursor : Cursor

namespace ScanUnit

/-- A whole buffer as one unit. -/
def whole (buffer : Buffer) : ScanUnit := ⟨0, buffer, .start 1⟩

/-- Each line as a unit, numbered from `first`. -/
def ofLines (first : Nat) : List Line → List ScanUnit
  | [] => []
  | l :: ls => ⟨l.offset, l.bytes, .start first⟩ :: ofLines (first + 1) ls

/-- The number of attempts that can be made in a unit. -/
def left (u : ScanUnit) : Nat := u.bytes.size + 1 - u.cursor.pos

/-- The number of attempts that can be made in a list of units. -/
def leftIn : List ScanUnit → Nat
  | [] => 0
  | u :: us => u.left + leftIn us

end ScanUnit

/-! ## The next match -/

/-- What is found from some offset on: the first offset with a match, and its length. -/
structure Found where
  offset : Nat
  length : Nat
deriving DecidableEq

/-- Try one offset of a buffer after another until there is a match. Branches that the attempts
give up are reported behind those given up before. -/
def firstMatch (t : Attempter) (buffer : Buffer) (abandoned : Array Nat) (offset : Nat) :
    Option Found × Attempter × Array Nat :=
  if offset ≤ buffer.size then
    match t.longestMatch buffer offset with
    | (⟨some length, given⟩, t) => (some ⟨offset, length⟩, t, abandoned ++ given)
    | (⟨none, given⟩, t) => firstMatch t buffer (abandoned ++ given) (offset + 1)
  else (none, t, abandoned)
termination_by buffer.size + 1 - offset

theorem firstMatch_bounds {t t' : Attempter} {buffer : Buffer} {abandoned abandoned' : Array Nat}
    {offset : Nat} {f : Found}
    (h : firstMatch t buffer abandoned offset = (some f, t', abandoned')) :
    offset ≤ f.offset ∧ f.offset ≤ buffer.size := by
  fun_induction firstMatch t buffer abandoned offset with
  | case1 _ _ _ hle _ _ _ _ => cases h; exact ⟨Nat.le_refl _, hle⟩
  | case2 _ _ _ _ _ _ _ ih => have := ih h; omega
  | case3 => simp at h

/-- The next match in a list of units, and the units that are left after it. -/
def matchInUnits (t : Attempter) (abandoned : Array Nat) :
    List ScanUnit → Option (Match × List ScanUnit) × Attempter × Array Nat
  | [] => (none, t, abandoned)
  | u :: us =>
    match firstMatch t u.bytes abandoned u.cursor.pos with
    | (none, t, abandoned) => matchInUnits t abandoned us
    | (some f, t, abandoned) =>
      let here := u.cursor.advance u.bytes (f.offset - u.cursor.pos)
      let after := here.advance u.bytes (max f.length 1)
      (some (⟨u.base + f.offset, f.length, here.line, here.column⟩,
        { u with cursor := after } :: us), t, abandoned)

theorem matchInUnits_of_none {t t' : Attempter} {abandoned abandoned' : Array Nat} {u : ScanUnit}
    (h : firstMatch t u.bytes abandoned u.cursor.pos = (none, t', abandoned'))
    (us : List ScanUnit) : matchInUnits t abandoned (u :: us) = matchInUnits t' abandoned' us := by
  rw [matchInUnits, h]

theorem matchInUnits_of_some {t t' : Attempter} {abandoned abandoned' : Array Nat} {u : ScanUnit}
    {f : Found} (h : firstMatch t u.bytes abandoned u.cursor.pos = (some f, t', abandoned'))
    (us : List ScanUnit) :
    matchInUnits t abandoned (u :: us) =
      let here := u.cursor.advance u.bytes (f.offset - u.cursor.pos)
      let after := here.advance u.bytes (max f.length 1)
      (some (⟨u.base + f.offset, f.length, here.line, here.column⟩,
        { u with cursor := after } :: us), t', abandoned') := by
  rw [matchInUnits, h]

theorem left_matchInUnits_lt {t t' : Attempter} {abandoned abandoned' : Array Nat}
    {us rest : List ScanUnit} {m : Match}
    (h : matchInUnits t abandoned us = (some (m, rest), t', abandoned')) :
    ScanUnit.leftIn rest < ScanUnit.leftIn us := by
  induction us generalizing t abandoned with
  | nil => simp [matchInUnits] at h
  | cons u us ih =>
    unfold matchInUnits at h
    split at h
    · have := ih h
      simp only [ScanUnit.leftIn]
      omega
    · next f t₁ abandoned₁ hf =>
      have hb := firstMatch_bounds hf
      cases h
      simp only [ScanUnit.leftIn, ScanUnit.left, Cursor.pos_advance]
      omega

/-! ## Scans -/

/-- A scan in progress. -/
structure Scan where
  attempter : Attempter
  /-- Whether to go on after the first match. -/
  global : Bool
  /-- What is still to be scanned. -/
  units : List ScanUnit

/-- What one step of a scan reports. -/
structure Report where
  found : Option Match
  /-- The depths at which attempts of this step gave up branches, in order. -/
  abandoned : Array Nat

namespace Scan

/-- A scan of a buffer. -/
def new (a : Automaton) (buffer : Buffer) (global multiline : Bool) : Scan :=
  { attempter := .new a searchDepthLimit
    global
    units := if multiline then ScanUnit.ofLines 1 (Lines.ofBuffer buffer).toList
      else [.whole buffer] }

/-- The next match, if there is one, and the rest of the scan. After a step without a match
nothing is left, nor after the first match of a scan that is not global. -/
def next : Scan → Report × Scan
  | ⟨t, global, units⟩ =>
    match matchInUnits t #[] units with
    | (none, t, abandoned) => (⟨none, abandoned⟩, ⟨t, global, []⟩)
    | (some (m, rest), t, abandoned) =>
      (⟨some m, abandoned⟩, ⟨t, global, if global then rest else []⟩)

/-- A bound on the number of attempts that are left. -/
def left (s : Scan) : Nat := ScanUnit.leftIn s.units

theorem left_next_lt {s s' : Scan} {m : Match} {abandoned : Array Nat}
    (h : s.next = (⟨some m, abandoned⟩, s')) : s'.left < s.left := by
  obtain ⟨t, global, units⟩ := s
  simp only [next] at h
  split at h
  · simp at h
  · next hm =>
    have hlt := left_matchInUnits_lt hm
    cases h
    cases global
    · simp only [left]
      exact Nat.lt_of_le_of_lt (Nat.zero_le _) hlt
    · exact hlt

/-- All matches that are left, and the branches given up while looking for them, behind those
listed already. -/
def collect (s : Scan) (found : Array Match) (abandoned : Array Nat) :
    Array Match × Array Nat :=
  match _h : s.next with
  | (⟨some m, given⟩, s) => s.collect (found.push m) (abandoned ++ given)
  | (⟨none, given⟩, _) => (found, abandoned ++ given)
termination_by s.left
decreasing_by exact left_next_lt _h

/-- All matches that are left. -/
def allMatches (s : Scan) : Array Match := (s.collect #[] #[]).1

/-- The reports of a number of steps. -/
def steps : Nat → Scan → List Report
  | 0, _ => []
  | n + 1, s =>
    let (report, s) := s.next
    report :: steps n s

end Scan

end ByteRegex
