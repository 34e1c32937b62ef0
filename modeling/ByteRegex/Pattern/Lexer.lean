import ByteRegex.Pattern.Error
import ByteRegex.Pattern.Escape
import ByteRegex.Pattern.Token

/-!
# From bytes to tokens

The lexer is a machine that reads one byte at a time. Its mode says what it is in the middle of:
nothing (`plain`), an escape, a repetition count or a bracket expression. Each byte either moves
it to another mode and emits tokens, or is refused. A run is therefore a fold over the bytes, and
the run over `p ++ q` is the run over `p` followed by the run over `q` (`run_append`).

Concatenation operators are not emitted by the machine; `Token.joinOperands` adds them to the
tokens of the whole pattern.

## Brackets

The members of a bracket expression are collected in a set. A literal is remembered, because a
`-` may follow and make it the lower end of a range; a class escape leaves what is remembered as
it is. Small positive brackets are not kept as classes: one member becomes that byte, two or three
members become a group of alternatives.
-/

namespace ByteRegex

namespace Lexer

/-! ## Modes -/

/-- A repetition count that is being read. -/
structure CountState where
  /-- The minimum, once its comma was read. -/
  min : Option Nat
  /-- The value of the digits read since the start or the comma. -/
  current : Option Nat
  /-- The number of those digits. -/
  digits : Nat
deriving DecidableEq

/-- The count right after its opening brace. -/
def CountState.start : CountState := ⟨none, none, 0⟩

/-- What a bracket expression remembers of the bytes before. -/
inductive Pending where
  | none
  /-- A literal, which may turn out to be the lower end of a range. -/
  | literal (b : Byte)
  /-- The lower end of a range whose `-` was read. -/
  | range (lo : Byte)
deriving DecidableEq

/-- A bracket expression that is being read. -/
structure BracketState where
  negated : Bool
  members : ByteSet
  pending : Pending
deriving DecidableEq

/-- A bracket expression without members. -/
def BracketState.start (negated : Bool) : BracketState := ⟨negated, .empty, .none⟩

/-- What the lexer is in the middle of. -/
inductive Mode where
  | plain
  /-- After a backslash. -/
  | escape
  /-- Between braces. -/
  | count (s : CountState)
  /-- Right after an opening bracket, where a caret negates. -/
  | bracketStart
  | bracket (s : BracketState)
  /-- After a backslash between brackets. -/
  | bracketEscape (s : BracketState)
deriving DecidableEq

/-- The mode after a byte, and the tokens that the byte completes. -/
abbrev Step := Except SyntaxError (Mode × List Token)

/-! ## Plain text and escapes -/

/-- A byte outside of escapes, counts and brackets. -/
def plainStep (c : Byte) : Mode × List Token :=
  match c.char with
  | '\\' => (.escape, [])
  | '{' => (.count .start, [])
  | '[' => (.bracketStart, [])
  | '(' => (.plain, [.openGroup])
  | ')' => (.plain, [.closeGroup])
  | '|' => (.plain, [.op .alternation])
  | '+' => (.plain, [.op .plus])
  | '*' => (.plain, [.op .star])
  | '?' => (.plain, [.op .opt])
  | '.' => (.plain, [.wildcard .any])
  | '^' => (.plain, [.anchor .start])
  | '$' => (.plain, [.anchor .finish])
  | _ => (.plain, [.byte c])

/-- The token of an escape. -/
def escapeToken : Escape → Token
  | .byte b => .byte b
  | .wildcard w => .wildcard w
  | .wordBoundary => .anchor .wordBoundary

/-- A byte after a backslash. -/
def escapeStep (c : Byte) : Step :=
  match Escape.ofByte? c with
  | some e => .ok (.plain, [escapeToken e])
  | none => .error (.invalidEscape c)

/-! ## Repetition counts -/

/-- A digit of a count: the value is checked before the number of digits. -/
def CountState.digit (s : CountState) (c : Byte) : Except SyntaxError CountState :=
  let value := s.current.getD 0 * 10 + c.digitValue
  if value > maxCount then .error .countOverLimit
  else if s.digits + 1 > maxCountDigits then .error .countTooManyDigits
  else .ok { s with current := some value, digits := s.digits + 1 }

/-- The comma of a count: the digits before it are the minimum. -/
def CountState.comma (s : CountState) : Except SyntaxError CountState :=
  match s.current with
  | some min => .ok ⟨some min, none, 0⟩
  | none => .error .countWithoutMinimum

/-- The closing brace of a count: `m` alone is exactly `m` copies, `m,` is at least `m`. -/
def CountState.close (s : CountState) : Except SyntaxError Token :=
  match s.min, s.current with
  | none, none => .error .countWithoutMinimum
  | none, some m => .ok (.count m (some m))
  | some m, none => .ok (.count m none)
  | some m, some n => if m > n then .error (.invertedCount m n) else .ok (.count m (some n))

/-- A byte between braces. Blanks are skipped. -/
def countStep (s : CountState) (c : Byte) : Step :=
  if c.isDigit then s.digit c |>.map fun s => (.count s, [])
  else match c.char with
    | ' ' => .ok (.count s, [])
    | ',' =>
      if s.min.isNone then s.comma.map fun s => (.count s, [])
      else .error (.countNotNumber c)
    | '}' => s.close.map fun t => (.plain, [t])
    | _ => .error (.countNotNumber c)

/-! ## Bracket expressions -/

/-- The most members that a positive bracket may have to become a byte or a group. -/
def maxListedMembers : Nat := 3

/-- The tokens of a complete bracket expression. -/
def bracketTokens (negated : Bool) (members : ByteSet) : List Token :=
  if negated || members.count > maxListedMembers then [.byteClass ⟨negated, members⟩]
  else match members.toList with
    | [b] => [.byte b]
    | bs => .openGroup :: (bs.map Token.byte).intersperse (.op .bracketAlternation)
        ++ [.closeGroup]

/-- A literal between brackets: the upper end of a range, or a member by itself. -/
def BracketState.literal (s : BracketState) (b : Byte) : Except SyntaxError BracketState :=
  match s.pending with
  | .range lo =>
    if b < lo then .error (.invertedRange lo b)
    else .ok { s with members := s.members.insertRange lo b, pending := .none }
  | _ => .ok { s with members := s.members.insert b, pending := .literal b }

/-- A class escape between brackets, which cannot be the end of a range. -/
def BracketState.wildcard (s : BracketState) (w : Wildcard) : Except SyntaxError BracketState :=
  match s.pending with
  | .range _ => .error .invalidRangeBound
  | _ => .ok { s with members := s.members.union w.toSet }

/-- A `-` between brackets: what is remembered becomes the lower end of a range. -/
def BracketState.dash (s : BracketState) : Except SyntaxError BracketState :=
  match s.pending with
  | .literal lo => .ok { s with pending := .range lo }
  | _ => .error .incompleteRange

/-- The closing bracket. -/
def BracketState.close (s : BracketState) : Except SyntaxError (List Token) :=
  match s.pending with
  | .range _ => .error .incompleteRange
  | _ =>
    if s.members.isEmpty then .error .emptyBracket else .ok (bracketTokens s.negated s.members)

/-- A byte between brackets. -/
def bracketStep (s : BracketState) (c : Byte) : Step :=
  match c.char with
  | ']' => s.close.map fun ts => (.plain, ts)
  | '-' => s.dash.map fun s => (.bracket s, [])
  | '\\' => .ok (.bracketEscape s, [])
  | _ => (s.literal c).map fun s => (.bracket s, [])

/-- A byte after a backslash between brackets, where no word boundary can stand. -/
def bracketEscapeStep (s : BracketState) (c : Byte) : Step :=
  match Escape.ofByte? c with
  | some (.byte b) => (s.literal b).map fun s => (.bracket s, [])
  | some (.wildcard w) => (s.wildcard w).map fun s => (.bracket s, [])
  | some .wordBoundary | none => .error (.invalidEscape c)

/-! ## Runs -/

/-- What the lexer does with one byte. -/
def step : Mode → Byte → Step
  | .plain, c => .ok (plainStep c)
  | .escape, c => escapeStep c
  | .count s, c => countStep s c
  | .bracketStart, c =>
    if c.char = '^' then .ok (.bracket (.start true), []) else bracketStep (.start false) c
  | .bracket s, c => bracketStep s c
  | .bracketEscape s, c => bracketEscapeStep s c

/-- What the lexer does with a sequence of bytes: the mode after it, and the tokens it emits. -/
def run : Mode → List Byte → Step
  | m, [] => .ok (m, [])
  | m, c :: cs => do
    let (m', ts) ← step m c
    let (m'', us) ← run m' cs
    return (m'', ts ++ us)

/-- A pattern may only end where nothing is left open. -/
def finish : Mode → Except SyntaxError Unit
  | .plain => .ok ()
  | .escape => .error .unterminatedEscape
  | .count _ => .error .unterminatedCount
  | .bracketStart | .bracket _ | .bracketEscape _ => .error .unterminatedBracket

theorem run_append (m : Mode) (p q : List Byte) :
    run m (p ++ q) = (do
      let (m', ts) ← run m p
      let (m'', us) ← run m' q
      return (m'', ts ++ us)) := by
  induction p generalizing m with
  | nil =>
    simp only [List.nil_append, run]
    show run m q = (run m q >>= _)
    cases run m q <;> rfl
  | cons c cs ih =>
    simp only [List.cons_append, run]
    cases step m c with
    | error e => rfl
    | ok r =>
      obtain ⟨m₁, ts⟩ := r
      show (run m₁ (cs ++ q) >>= _) = ((run m₁ cs >>= _) >>= _)
      rw [ih]
      cases run m₁ cs with
      | error e => rfl
      | ok r =>
        obtain ⟨m₂, us⟩ := r
        show ((run m₂ q >>= _) >>= _) = (run m₂ q >>= _)
        cases run m₂ q with
        | error e => rfl
        | ok r =>
          obtain ⟨m₃, vs⟩ := r
          show Except.ok (m₃, ts ++ (us ++ vs)) = Except.ok (m₃, ts ++ us ++ vs)
          rw [List.append_assoc]

end Lexer

/-- The tokens of a pattern, with juxtaposition made explicit. -/
def tokenize (pattern : List Byte) : Except SyntaxError (List Token) := do
  if pattern.length > maxPatternLength then throw (.patternTooLong pattern.length)
  let (mode, tokens) ← Lexer.run .plain pattern
  Lexer.finish mode
  return Token.joinOperands tokens

end ByteRegex
