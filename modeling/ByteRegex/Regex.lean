import ByteRegex.Compile
import ByteRegex.Scan

/-!
# Regular expressions

A regular expression is a pattern that was compiled, together with its flags. This is the
interface of the library: compile a pattern, ask for the longest match at an offset, or scan a
buffer for matches.
-/

namespace ByteRegex

/-! ## Errors -/

/-- Why a pattern cannot be compiled. -/
inductive RegexError where
  | inSyntax (e : SyntaxError)
  | inCompilation (e : CompileError)
deriving DecidableEq

/-- The message of an error. -/
def RegexError.message : RegexError → String
  | inSyntax e => "syntax error: " ++ e.message
  | inCompilation e => "compile error: " ++ e.message

/-! ## Compilation -/

/-- A compiled pattern with its flags. -/
structure Regex where
  automaton : Automaton
  flags : Flags

namespace Regex

/-- Compile a pattern, which is any sequence of bytes. -/
def compile (pattern : List Byte) (flags : Flags) : Except RegexError Regex := do
  let tree ← (Tree.parse pattern).mapError .inSyntax
  let nfa ← (Nfa.ofTree { fastUnion := !flags.noMerge } tree).mapError .inCompilation
  let automaton ← (nfa.reduce maxAutomatonStates).mapError .inCompilation
  return ⟨automaton, flags⟩

/-- Compile a pattern, and report what was done. -/
def compileTraced (pattern : List Byte) (flags : Flags) : Traced RegexError Regex := do
  let tree ← (Tree.parseTraced pattern).mapError .inSyntax
  let nfa ← (Nfa.ofTreeTraced { fastUnion := !flags.noMerge } tree).mapError .inCompilation
  let automaton ← (nfa.reduceTraced maxAutomatonStates).mapError .inCompilation
  Traced.report (.compiled pattern flags automaton.stateCount automaton.edgeCount)
  return ⟨automaton, flags⟩

theorem compileTraced_yields (pattern : List Byte) (flags : Flags) :
    (compileTraced pattern flags).Yields (compile pattern flags) :=
  .bind (.mapError _ (Tree.parseTraced_yields _)) fun _ =>
    .bind (.mapError _ (Nfa.ofTreeTraced_yields _ _)) fun _ =>
      .bind (.mapError _ (Nfa.reduceTraced_yields _ _)) fun _ =>
        .report _ (Traced.yields_pure _)

/-- Compile a pattern given as text. -/
def ofString (pattern : String) (flags : Flags := {}) : Except RegexError Regex :=
  compile pattern.toUTF8.toList flags

/-! ## Matching -/

/-- The longest match that starts at an offset. -/
def longestMatch (r : Regex) (buffer : Buffer) (offset : Nat) : Attempt :=
  r.automaton.longestMatch searchDepthLimit buffer offset

/-- The length of the longest match that starts at an offset. -/
def longestMatchAt (r : Regex) (buffer : Buffer) (offset : Nat) : Option Nat :=
  (r.longestMatch buffer offset).length

/-- A scan of a buffer for the matches that the flags ask for. -/
def scan (r : Regex) (buffer : Buffer) : Scan :=
  .new r.automaton buffer r.flags.global r.flags.multiline

/-- The first match in a buffer. -/
def find? (r : Regex) (buffer : Buffer) : Option Match := (r.scan buffer).next.1.found

/-- Whether there is a match in a buffer. -/
def isMatch (r : Regex) (buffer : Buffer) : Bool := (r.find? buffer).isSome

/-- The matches in a buffer, of which there is at most one unless the global flag is set. -/
def allMatches (r : Regex) (buffer : Buffer) : Array Match := (r.scan buffer).allMatches

end Regex

end ByteRegex
