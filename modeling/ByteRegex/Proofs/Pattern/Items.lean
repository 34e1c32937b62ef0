import ByteRegex.Pattern.Escape
import Mathlib.Data.List.Infix

/-!
# The notation between brackets

Between brackets a byte is a literal, a dash or the end, and a backslash makes the byte after it a
literal or a wildcard. `BracketUnit.ofText?` cuts a text into such units. The documented notation
makes items of them: a literal, a wildcard, or a range from one literal to another that is not
smaller, with a dash between them.

What the lexer reads is wider: there may be wildcards between the lower end of a range and its dash,
as in `[a\d-z]`. A `BracketItem` may therefore have some there, and is documented if it has none
(`BracketItem.Documented`). The items that are not are just those that put a dash after a wildcard
(`BracketItem.documented_iff`).
-/

namespace ByteRegex

/-! ## Units -/

/-- What a byte, or a backslash and a byte, is between brackets. -/
inductive BracketUnit where
  | literal (b : Byte)
  | wildcard (w : Wildcard)
  | dash
deriving DecidableEq

/-- The unit of a backslash and a byte, if they may stand between brackets. -/
def BracketUnit.ofEscaped? (c : Byte) : Option BracketUnit :=
  match Escape.ofByte? c with
  | some (.byte b) => some (.literal b)
  | some (.wildcard w) => some (.wildcard w)
  | some .wordBoundary | none => none

/-- The units of a text between brackets. None if the brackets end in it, or if an escape is wrong
or cut off. -/
def BracketUnit.ofText? : List Byte → Option (List BracketUnit)
  | [] => some []
  | c :: text =>
    match c.char with
    | ']' => none
    | '-' => (ofText? text).map (.dash :: ·)
    | '\\' =>
      match text with
      | [] => none
      | d :: text =>
        match ofEscaped? d with
        | some u => (ofText? text).map (u :: ·)
        | none => none
    | _ => (ofText? text).map (.literal c :: ·)

section Text

variable {c d : Byte} {text : List Byte} {us : List BracketUnit} {u : BracketUnit}

theorem BracketUnit.ofText?_dash (hc : c.char = '-') (h : ofText? text = some us) :
    ofText? (c :: text) = some (.dash :: us) := by
  rw [ofText?.eq_def]
  simp only [hc, h, Option.map_some]

theorem BracketUnit.ofText?_escaped (hc : c.char = '\\') (hd : ofEscaped? d = some u)
    (h : ofText? text = some us) : ofText? (c :: d :: text) = some (u :: us) := by
  simp only [ofText?, hc, hd, h, Option.map_some]

theorem BracketUnit.ofText?_literal (hclose : c.char ≠ ']') (hdash : c.char ≠ '-')
    (hslash : c.char ≠ '\\') (h : ofText? text = some us) :
    ofText? (c :: text) = some (.literal c :: us) := by
  rw [ofText?.eq_def]
  simp only [h, Option.map_some]

end Text

/-- The text between brackets without the caret that negates it. -/
def dropCaret : List Byte → List Byte
  | [] => []
  | c :: text => if c.char = '^' then text else c :: text

/-! ## Items -/

/-- A part of a bracket expression. The wildcards between the lower end of a range and its dash are
members by themselves. -/
inductive BracketItem where
  | literal (b : Byte)
  | wildcard (w : Wildcard)
  | range (lo : Byte) (between : List Wildcard) (hi : Byte)
deriving DecidableEq

namespace BracketItem

/-- The units of an item. -/
def units : BracketItem → List BracketUnit
  | literal b => [.literal b]
  | wildcard w => [.wildcard w]
  | range lo between hi => .literal lo :: between.map .wildcard ++ [.dash, .literal hi]

/-- A range does not end below its lower end. -/
def Ordered : BracketItem → Prop
  | literal _ | wildcard _ => True
  | range lo _ hi => lo ≤ hi

/-- Whether an item is in the documented notation, where a dash follows a literal. -/
def Documented : BracketItem → Prop
  | literal _ | wildcard _ => True
  | range _ between _ => between = []

end BracketItem

/-- A text between brackets, after its caret if it has one, is made of some items, one or more. -/
structure IsBody (body : List Byte) (items : List BracketItem) : Prop where
  units_eq : BracketUnit.ofText? (dropCaret body) = some (items.flatMap BracketItem.units)
  ne_nil : items ≠ []
  ordered : ∀ i ∈ items, i.Ordered

/-! ## Dashes -/

namespace BracketItem

variable {items : List BracketItem} {i : BracketItem} {front back : List BracketUnit}

/-- Only a range has a dash, and only one. -/
theorem range_of_units_eq (h : i.units = front ++ .dash :: back) :
    ∃ lo hi, ∃ between : List Wildcard, i = .range lo between hi ∧
      front = .literal lo :: between.map .wildcard ∧ back = [.literal hi] := by
  cases i with
  | literal b => cases front <;> simp [units] at h
  | wildcard w => cases front <;> simp [units] at h
  | range lo between hi =>
    refine ⟨lo, hi, between, rfl, ?_⟩
    rcases List.append_eq_append_iff.mp h with ⟨tail, hfront, htail⟩ | ⟨tail, hlower, htail⟩
    · cases tail with
      | nil =>
        rw [List.append_nil] at hfront
        exact ⟨hfront, (List.cons.inj htail).2.symm⟩
      | cons u tail => cases tail <;> simp at htail
    · cases tail with
      | nil =>
        rw [List.append_nil] at hlower
        exact ⟨hlower.symm, (List.cons.inj htail).2⟩
      | cons u tail =>
        -- no dash among a literal and wildcards
        obtain ⟨rfl, -⟩ := List.cons.inj htail
        have hmem : BracketUnit.dash ∈ BracketUnit.literal lo :: between.map .wildcard := by
          rw [hlower]
          simp
        simp at hmem

/-- A dash belongs to a range: what is before it ends with the lower end, and what is behind it
begins with the upper end. -/
theorem exists_range_of_dash (h : items.flatMap units = front ++ .dash :: back) :
    ∃ items₁ items₂ lo hi, ∃ between : List Wildcard,
      items = items₁ ++ .range lo between hi :: items₂ ∧
      front = items₁.flatMap units ++ .literal lo :: between.map .wildcard ∧
      back = .literal hi :: items₂.flatMap units := by
  induction items generalizing front with
  | nil => simp at h
  | cons i items ih =>
    -- the dash is in one of the later items
    have later : ∀ front', front = i.units ++ front' →
        items.flatMap units = front' ++ .dash :: back →
        ∃ items₁ items₂ lo hi, ∃ between : List Wildcard,
          i :: items = items₁ ++ .range lo between hi :: items₂ ∧
          front = items₁.flatMap units ++ .literal lo :: between.map .wildcard ∧
          back = .literal hi :: items₂.flatMap units := by
      rintro front' rfl h'
      obtain ⟨items₁, items₂, lo, hi, between, rfl, rfl, hback⟩ := ih h'
      exact ⟨i :: items₁, items₂, lo, hi, between, rfl, by simp, hback⟩
    rw [List.flatMap_cons] at h
    rcases List.append_eq_append_iff.mp h with ⟨front', hfront, h'⟩ | ⟨tail, hi, h'⟩
    · exact later front' hfront h'
    · cases tail with
      | nil => exact later [] (by simpa using hi.symm) h'.symm
      | cons u tail =>
        obtain ⟨rfl, rfl⟩ := List.cons.inj h'
        obtain ⟨lo, upper, between, rfl, rfl, rfl⟩ := range_of_units_eq hi
        exact ⟨[], items, lo, upper, between, rfl, rfl, rfl⟩

/-- **The ranges that are not documented are those in which a wildcard is followed by a dash.** -/
theorem documented_iff :
    (∀ i ∈ items, i.Documented) ↔ ∀ w, ¬ [.wildcard w, .dash] <:+: items.flatMap units := by
  constructor
  · rintro hitems w ⟨front, back, h⟩
    have hdash : items.flatMap units = (front ++ [.wildcard w]) ++ .dash :: back := by
      rw [← h]
      simp
    obtain ⟨items₁, items₂, lo, hi, between, rfl, hfront, -⟩ := exists_range_of_dash hdash
    obtain rfl : between = [] := hitems (.range lo between hi) (by simp)
    have hlast := (List.append_inj' hfront rfl).2
    cases hlast
  · intro hno i hi
    cases i with
    | literal b => trivial
    | wildcard w => trivial
    | range lo between hi' =>
      rcases List.eq_nil_or_concat between with rfl | ⟨ws, w, rfl⟩
      · rfl
      · obtain ⟨items₁, items₂, rfl⟩ := List.append_of_mem hi
        refine absurd ⟨items₁.flatMap units ++ .literal lo :: ws.map .wildcard,
          .literal hi' :: items₂.flatMap units, ?_⟩ (hno w)
        simp [units]

end BracketItem

/-! ## Sequences of items -/

/-- Units that are the units of some items, one after another. -/
def Itemized (us : List BracketUnit) : Prop :=
  ∃ items : List BracketItem, us = items.flatMap BracketItem.units ∧ ∀ i ∈ items, i.Ordered

namespace Itemized

variable {us vs : List BracketUnit} {i : BracketItem}

theorem nil : Itemized [] := ⟨[], rfl, by simp⟩

theorem of_item (hi : i.Ordered) : Itemized i.units :=
  ⟨[i], (List.append_nil _).symm, by simp [hi]⟩

theorem append (hu : Itemized us) (hv : Itemized vs) : Itemized (us ++ vs) := by
  obtain ⟨items, rfl, hitems⟩ := hu
  obtain ⟨items', rfl, hitems'⟩ := hv
  refine ⟨items ++ items', List.flatMap_append.symm, ?_⟩
  intro i hi
  rcases List.mem_append.mp hi with hi | hi
  · exact hitems i hi
  · exact hitems' i hi

theorem of_wildcards (ws : List Wildcard) : Itemized (ws.map .wildcard) := by
  induction ws with
  | nil => exact nil
  | cons w ws ih => exact (of_item (i := .wildcard w) trivial).append ih

end Itemized

end ByteRegex
