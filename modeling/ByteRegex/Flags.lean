/-!
# Flags

Flags say how a buffer is scanned, and whether alternatives are merged when a pattern is
compiled.
-/

namespace ByteRegex

/-- The flags of a regular expression. -/
structure Flags where
  /-- Report every match of a buffer, and not only the first. -/
  global : Bool := false
  /-- Scan each line as a buffer of its own. -/
  multiline : Bool := false
  /-- Do not merge alternatives when compiling. -/
  noMerge : Bool := false
deriving DecidableEq

namespace Flags

/-- Set the flag of a character; other characters mean nothing. -/
def set (f : Flags) (c : Char) : Flags :=
  match c with
  | 'g' => { f with global := true }
  | 'm' => { f with multiline := true }
  | _ => f

/-- The flags that a text sets. -/
def ofString (s : String) : Flags := s.toList.foldl set {}

/-- The text of flags. -/
def text (f : Flags) : String :=
  (if f.global then "g" else "") ++ (if f.multiline then "m" else "")

end Flags

end ByteRegex
