import ByteRegex.Label.Wildcard
import ByteRegex.Label.Anchor

/-!
# Edges and their labels

An edge of an automaton leads to a target state under a label. A label reads one byte, or tests
an anchor, or does neither.

Labels are ordered by `Label.rank`, and edges by target first and label second. Both orders are
total, and elements that compare as equal are equal (`Std.LawfulEqOrd`), so a sorted set of edges
has one form only.
-/

namespace ByteRegex

/-! ## Labels -/

/-- What following an edge requires. -/
inductive Label where
  /-- Follow without reading anything. -/
  | epsilon
  /-- Follow without reading anything, if the anchor holds. -/
  | anchor (a : Anchor)
  | byte (b : Byte)
  | wildcard (w : Wildcard)
  /-- Read a member of the class with this place in the pool of classes. -/
  | classRef (id : Nat)
deriving DecidableEq

namespace Label

/-- Whether following the edge reads a byte. -/
def consumes : Label → Bool
  | epsilon | anchor _ => false
  | byte _ | wildcard _ | classRef _ => true

/-- Whether a label reads the byte `b`. Classes are looked up in a pool; what reads nothing
accepts nothing, and nor does a class that the pool lacks. -/
def accepts (classes : Array ByteClass) (b : Byte) : Label → Bool
  | byte c => c == b
  | wildcard w => w.accepts b
  | classRef id => match classes[id]? with
    | some c => c.accepts b
    | none => false
  | epsilon | anchor _ => false

/-- The text of a label. -/
def text : Label → String
  | epsilon => "ε"
  | anchor a => a.text
  | byte b => b.quoted
  | wildcard w => w.text
  | classRef id => "class#" ++ toString id

/-- The place of a label in the order of labels: epsilon, anchors, bytes, wildcards, classes. -/
def rank : Label → Nat
  | epsilon => 0
  | anchor a => 1 + a.rank
  | byte b => 4 + b.toNat
  | wildcard w => 260 + w.rank
  | classRef id => 267 + id

theorem rank_inj {l m : Label} (h : l.rank = m.rank) : l = m := by
  have ha := Anchor.rank_lt
  have hw := Wildcard.rank_lt
  have hb := UInt8.toNat_lt
  cases l with
  | epsilon =>
    cases m <;> simp only [rank] at h <;> first | rfl | omega
  | anchor a =>
    cases m with
    | anchor b => exact congrArg anchor (Anchor.rank_inj (by simpa [rank] using h))
    | epsilon => simp only [rank] at h; omega
    | byte b => have := ha a; simp only [rank] at h; omega
    | wildcard w => have := ha a; simp only [rank] at h; omega
    | classRef i => have := ha a; simp only [rank] at h; omega
  | byte a =>
    cases m with
    | byte b => exact congrArg byte (UInt8.toNat_inj.mp (by simpa [rank] using h))
    | epsilon => simp only [rank] at h; omega
    | anchor b => have := ha b; simp only [rank] at h; omega
    | wildcard w => have := hb a; simp only [rank] at h; omega
    | classRef i => have := hb a; simp only [rank] at h; omega
  | wildcard v =>
    cases m with
    | wildcard w => exact congrArg wildcard (Wildcard.rank_inj (by simpa [rank] using h))
    | epsilon => simp only [rank] at h; omega
    | anchor b => have := ha b; simp only [rank] at h; omega
    | byte b => have := hb b; simp only [rank] at h; omega
    | classRef i => have := hw v; simp only [rank] at h; omega
  | classRef i =>
    cases m with
    | classRef j => rw [show i = j by simpa [rank] using h]
    | epsilon => simp only [rank] at h; omega
    | anchor b => have := ha b; simp only [rank] at h; omega
    | byte b => have := hb b; simp only [rank] at h; omega
    | wildcard w => have := hw w; simp only [rank] at h; omega

end Label

/-! ## Edges -/

/-- An edge out of some state. -/
structure Edge where
  target : Nat
  label : Label
deriving DecidableEq

namespace Edge

/-- The order of edges: by target first, by label second. -/
instance : Ord Edge := ⟨compareLex (compareOn (·.target)) (compareOn (·.label.rank))⟩

instance : Std.TransOrd Edge :=
  inferInstanceAs (Std.TransCmp (compareLex (compareOn Edge.target) (compareOn (·.label.rank))))

instance : Std.LawfulEqOrd Edge where
  eq_of_compare {d e} h := by
    have h' : (compare d.target e.target).then (compare d.label.rank e.label.rank) = .eq := h
    rw [Ordering.then_eq_eq] at h'
    have ht := Std.LawfulEqOrd.eq_of_compare h'.1
    have hl := Label.rank_inj (Std.LawfulEqOrd.eq_of_compare h'.2)
    cases d; cases e; simp_all

/-- The same edge towards another name of its target. -/
def retarget (rename : Nat → Nat) (e : Edge) : Edge := { e with target := rename e.target }

end Edge

end ByteRegex
