import ByteRegex.Flags
import ByteRegex.Text.Utf8

/-!
# Events

Compiling and searching report what they do as events, in the order in which it happens. A
computation that reports events and may fail is `Traced`; it keeps the events of what it did
before it failed.
-/

namespace ByteRegex

/-- What is worth reporting. -/
inductive Event where
  /-- The tokens of a pattern were put in order. -/
  | ordered (tokens : Nat)
  /-- A tree was built. -/
  | treeBuilt (nodes : Nat)
  /-- A fragment was built. -/
  | fragmentBuilt (states classes : Nat)
  /-- The epsilon edges of a fragment were removed. -/
  | reduced (before after : Nat)
  /-- A pattern was compiled. -/
  | compiled (pattern : List Byte) (flags : Flags) (states edges : Nat)
  /-- A search gave up a branch. -/
  | abandoned (depth : Nat)
deriving DecidableEq

namespace Event

/-- How important an event is. -/
def level : Event → String
  | abandoned _ => "TRACE"
  | _ => "DEBUG"

/-- What an event says. -/
def message : Event → String
  | ordered tokens => "parsed " ++ toString tokens ++ " postfix tokens"
  | treeBuilt nodes => "built syntax tree of " ++ toString nodes ++ " nodes"
  | fragmentBuilt states classes =>
    "built Thompson fragment of " ++ toString states ++ " states and " ++ toString classes
      ++ " classes"
  | reduced before after =>
    "reduced automaton from " ++ toString before ++ " to " ++ toString after ++ " states"
  | compiled pattern flags states edges =>
    "compiled /" ++ Utf8.decodeLossy pattern ++ "/" ++ flags.text ++ " to " ++ toString states
      ++ " states, " ++ toString edges ++ " edges"
  | abandoned depth => "abandoned search branch at depth " ++ toString depth

/-- The line of an event in a log. -/
def line (e : Event) : String := e.level ++ " " ++ e.message

end Event

/-! ## Computations that report events -/

/-- A computation that reports events and may fail. -/
abbrev Traced (ε : Type) := ExceptT ε (StateM (Array Event))

namespace Traced

variable {ε α : Type}

/-- Report one event. -/
def report (e : Event) : Traced ε Unit := modify (·.push e)

/-- Report the branches that a search gave up. -/
def reportAbandoned (depths : Array Nat) : Traced ε Unit :=
  modify (· ++ depths.map .abandoned)

/-- The result of a computation without events. -/
def ofExcept (x : Except ε α) : Traced ε α := ExceptT.mk (pure x)

/-- The same computation with another kind of error. -/
def mapError {δ : Type} (f : ε → δ) (x : Traced ε α) : Traced δ α :=
  ExceptT.mk (Except.mapError f <$> x.run)

/-- The result of a computation, and its events. -/
def result (x : Traced ε α) : Except ε α × Array Event := x.run.run #[]

/-! ## Results without events -/

/-- The result of a computation is `r`, whatever was reported before. -/
def Yields (x : Traced ε α) (r : Except ε α) : Prop := ∀ events, (x.run.run events).1 = r

theorem yields_pure (a : α) : Yields (pure a : Traced ε α) (.ok a) := fun _ => rfl

theorem yields_ofExcept (r : Except ε α) : Yields (ofExcept r) r := fun _ => rfl

namespace Yields

variable {β δ : Type} {x : Traced ε α} {r : Except ε α}

theorem bind {f : α → Traced ε β} {g : α → Except ε β} (hx : x.Yields r)
    (hf : ∀ a, (f a).Yields (g a)) : (x >>= f).Yields (r >>= g) := by
  intro events
  show (StateT.run (x.run >>= ExceptT.bindCont f) events).1 = _
  rw [StateT.run_bind]
  show (StateT.run (ExceptT.bindCont f (x.run.run events).1) (x.run.run events).2).1 = _
  rw [hx events]
  cases r with
  | error e => rfl
  | ok a => exact hf a _

/-- What is done after a result was found need not change it. -/
theorem andThen {f : α → Traced ε α} (hx : x.Yields r) (hf : ∀ a, (f a).Yields (.ok a)) :
    (x >>= f).Yields r := by
  have h := hx.bind hf
  cases r <;> exact h

/-- Reporting an event does not change the result. -/
theorem report (e : Event) (hx : x.Yields r) : (do Traced.report e; x).Yields r :=
  fun events => hx (events.push e)

theorem mapError (f : ε → δ) (hx : x.Yields r) : (x.mapError f).Yields (r.mapError f) := by
  intro events
  show Except.mapError f (x.run.run events).1 = _
  rw [hx events]

end Yields

end Traced

end ByteRegex
