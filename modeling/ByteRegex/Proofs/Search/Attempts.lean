import ByteRegex.Proofs.Search.Reuse

/-!
# Sequences of attempts

An attempter makes attempts one after another, on any buffers and at any offsets. Whatever it did
before, it is ready for the next attempt (`Attempter.Ready.after`), so each attempt finds what a new
attempter finds (`Attempter.attempts_new`).
-/

namespace ByteRegex

/-- A try for a match: a buffer, and an offset that may lie beyond its end. -/
structure Try where
  buffer : Buffer
  offset : Nat

namespace Attempter

/-- The attempter after some tries. -/
def after : Attempter → List Try → Attempter
  | t, [] => t
  | t, x :: tries => (t.longestMatch x.buffer x.offset).2.after tries

/-- What an attempter finds in some tries, the first one first. -/
def attempts : Attempter → List Try → List Attempt
  | _, [] => []
  | t, x :: tries =>
    (t.longestMatch x.buffer x.offset).1 :: (t.longestMatch x.buffer x.offset).2.attempts tries

variable {a : Automaton} {limit : Nat} {t : Attempter}

namespace Ready

/-- Any number of attempts leave the attempter ready for the next. -/
theorem after (h : Ready a limit t) (tries : List Try) : Ready a limit (t.after tries) := by
  induction tries generalizing t with
  | nil => exact h
  | cons x tries ih => exact ih (h.longestMatch_snd x.buffer x.offset)

/-- Each attempt finds what the automaton finds by itself. -/
theorem attempts_eq (h : Ready a limit t) (tries : List Try) :
    t.attempts tries = tries.map fun x => a.longestMatch limit x.buffer x.offset := by
  induction tries generalizing t with
  | nil => rfl
  | cons x tries ih =>
    rw [attempts, List.map_cons, h.longestMatch_fst, ih (h.longestMatch_snd x.buffer x.offset)]

end Ready

/-- **Reuse never changes an answer.** In any sequence of tries, each one finds, and gives up, what
a new attempter does in that try alone. -/
theorem attempts_new (a : Automaton) (limit : Nat) (tries : List Try) :
    (new a limit).attempts tries =
      tries.map fun x => ((new a limit).longestMatch x.buffer x.offset).1 :=
  (ready_new a limit).attempts_eq tries

/-- The second try starts beyond the end, and the third is shorter than the first. -/
example :
    let a : Automaton := ⟨#[[⟨0, .byte 0x61⟩]], ⟨#[1]⟩, ⟨#[1]⟩, #[]⟩
    ((new a 9).attempts [⟨#[0x61, 0x61], 0⟩, ⟨#[0x61], 2⟩, ⟨#[0x61, 0x62], 0⟩]).map (·.length) =
      [some 2, none, some 1] := by
  cbv

end Attempter

end ByteRegex
