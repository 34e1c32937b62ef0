import ByteRegex.Label.Basic
import ByteRegex.Pattern.Tree
import Mathlib.Computability.Language
import Mathlib.Logic.Relation

/-!
# Expressions and what they mean

An expression (`Expr`) is a syntax tree without its arena: nodes hold their operands, sharing and
groups are gone, and both kinds of alternation are one. `Tree.Denotes` says which expression an
arena stands for; it is at most one (`Tree.Denotes.unique`).

An expression has two meanings.

* `Expr.language` is a regular language over letters, which are what the leaves of a tree stand for.
* `Expr.Derives` is a relation between the places of a buffer, each with the number of letters read
  on the way there.

`Expr.derives_iff` ties them together: a derivation is a word of the language whose letters can be
read one after another.
-/

open scoped Computability

namespace ByteRegex

/-! ## Letters -/

/-- What a leaf of a syntax tree stands for: a test of one byte, or an anchor. -/
inductive Letter where
  | byte (b : Byte)
  | wildcard (w : Wildcard)
  | anchor (a : Anchor)
  | byteClass (c : ByteClass)
deriving DecidableEq

/-- The letter of an atom. -/
def Token.letter? : Token → Option Letter
  | .byte b => some (.byte b)
  | .wildcard w => some (.wildcard w)
  | .anchor a => some (.anchor a)
  | .byteClass c => some (.byteClass c)
  | .count _ _ | .op _ | .openGroup | .closeGroup => none

namespace Letter

/-- Whether a letter reads the byte `b`. -/
def accepts (b : Byte) : Letter → Bool
  | byte c => c == b
  | wildcard w => w.accepts b
  | byteClass c => c.accepts b
  | anchor _ => false

/-- From where to where a letter leads: an anchor stays where it holds (`Anchor.holdsAt_iff`), the
others read a byte. -/
def Moves (buffer : Buffer) (x : Letter) (i j : Nat) : Prop :=
  match x with
  | anchor a => a.holdsAt buffer i = true ∧ j = i
  | x => (∃ b, buffer[i]? = some b ∧ x.accepts b = true) ∧ j = i + 1

end Letter

/-- What a label stands for, given the pool of classes. -/
def Label.letter? (classes : Array ByteClass) : Label → Option Letter
  | epsilon => none
  | anchor a => some (.anchor a)
  | byte b => some (.byte b)
  | wildcard w => some (.wildcard w)
  | classRef id => classes[id]?.map .byteClass

/-- From where to where the letters of a word lead, one after another. -/
def WordMoves {α : Type} (moves : α → Nat → Nat → Prop) : List α → Nat → Nat → Prop
  | [], i, j => j = i
  | x :: w, i, j => ∃ k, moves x i k ∧ WordMoves moves w k j

theorem wordMoves_append {α : Type} {moves : α → Nat → Nat → Prop} {v w : List α} {i j : Nat} :
    WordMoves moves (v ++ w) i j ↔ ∃ k, WordMoves moves v i k ∧ WordMoves moves w k j := by
  induction v generalizing i with
  | nil => simp [WordMoves]
  | cons x v ih =>
    simp only [List.cons_append, WordMoves, ih]
    constructor
    · rintro ⟨m, hx, k, hv, hw⟩
      exact ⟨k, ⟨m, hx, hv⟩, hw⟩
    · rintro ⟨k, ⟨m, hx, hv⟩, hw⟩
      exact ⟨m, hx, k, hv, hw⟩

/-! ## Expressions -/

/-- A syntax tree without its arena. -/
inductive Expr where
  /-- The empty pattern. -/
  | empty
  | letter (x : Letter)
  | concat (left right : Expr)
  | alternation (left right : Expr)
  | opt (e : Expr)
  | star (e : Expr)
  | plus (e : Expr)
  | count (min : Nat) (max : Option Nat) (e : Expr)
deriving DecidableEq

/-- The numbers of copies that a repetition count allows: from `least` to `most`, or from `least`
on. A maximum below the minimum counts as the minimum. -/
def CountAllows (least : Nat) (most : Option Nat) (k : Nat) : Prop :=
  least ≤ k ∧ ∀ n ∈ most, k ≤ max least n

namespace Tree

/-- The expression below a place of an arena. Children that a token does not take are ignored. -/
inductive Unfolds (nodes : Array Node) : Nat → Expr → Prop where
  | letter {id : Nat} {t : Token} {l r : Option Nat} {x : Letter} :
    nodes[id]? = some ⟨t, l, r⟩ → t.letter? = some x → Unfolds nodes id (.letter x)
  | concat {id l r : Nat} {a b : Expr} :
    nodes[id]? = some ⟨.op .concat, some l, some r⟩ →
    Unfolds nodes l a → Unfolds nodes r b → Unfolds nodes id (.concat a b)
  | alternation {id l r : Nat} {o : Operator} {a b : Expr} :
    nodes[id]? = some ⟨.op o, some l, some r⟩ → o = .alternation ∨ o = .bracketAlternation →
    Unfolds nodes l a → Unfolds nodes r b → Unfolds nodes id (.alternation a b)
  | opt {id c : Nat} {r : Option Nat} {e : Expr} :
    nodes[id]? = some ⟨.op .opt, some c, r⟩ → Unfolds nodes c e → Unfolds nodes id (.opt e)
  | star {id c : Nat} {r : Option Nat} {e : Expr} :
    nodes[id]? = some ⟨.op .star, some c, r⟩ → Unfolds nodes c e → Unfolds nodes id (.star e)
  | plus {id c : Nat} {r : Option Nat} {e : Expr} :
    nodes[id]? = some ⟨.op .plus, some c, r⟩ → Unfolds nodes c e → Unfolds nodes id (.plus e)
  | count {id c min : Nat} {max : Option Nat} {r : Option Nat} {e : Expr} :
    nodes[id]? = some ⟨.count min max, some c, r⟩ → Unfolds nodes c e →
    Unfolds nodes id (.count min max e)

/-- The expression that an arena stands for. -/
def Denotes (t : Tree) (e : Expr) : Prop :=
  match t.root with
  | none => e = .empty
  | some root => Unfolds t.nodes root e

theorem Unfolds.unique {nodes : Array Node} {id : Nat} {a b : Expr} (ha : Unfolds nodes id a)
    (hb : Unfolds nodes id b) : a = b := by
  -- the node at a place decides which rule applies there and to which children
  induction ha generalizing b with
  | letter hn hx => cases hb <;> grind [Token.letter?]
  | concat hn _ _ iha ihb => cases hb <;> grind [Token.letter?]
  | alternation hn ho _ _ iha ihb => cases hb <;> grind [Token.letter?]
  | opt hn _ ih => cases hb <;> grind [Token.letter?]
  | star hn _ ih => cases hb <;> grind [Token.letter?]
  | plus hn _ ih => cases hb <;> grind [Token.letter?]
  | count hn _ ih => cases hb <;> grind [Token.letter?]

theorem Denotes.unique {t : Tree} {a b : Expr} (ha : t.Denotes a) (hb : t.Denotes b) : a = b := by
  unfold Denotes at ha hb
  cases hr : t.root with
  | none => rw [hr] at ha hb; rw [ha, hb]
  | some root => rw [hr] at ha hb; exact ha.unique hb

end Tree

/-! ## Languages -/

/-- The words made of as many words of a language as `allows` permits. -/
def repetitions {α : Type} (allows : Nat → Prop) (L : Language α) : Language α :=
  {w | ∃ k, allows k ∧ w ∈ L ^ k}

theorem map_repetitions {α β : Type} (f : α → β) (allows : Nat → Prop) (L : Language α) :
    (repetitions allows L).map f = repetitions allows (L.map f) := by
  ext w
  constructor
  · rintro ⟨v, ⟨k, hk, hv⟩, rfl⟩
    refine ⟨k, hk, ?_⟩
    rw [← map_pow]
    exact ⟨v, hv, rfl⟩
  · rintro ⟨k, hk, hw⟩
    rw [← map_pow] at hw
    obtain ⟨v, hv, rfl⟩ := hw
    exact ⟨v, ⟨k, hk, hv⟩, rfl⟩

theorem kstar_eq_repetitions {α : Type} (L : Language α) : L∗ = repetitions (fun _ => True) L := by
  ext w
  rw [Language.kstar_eq_iSup_pow, Language.mem_iSup]
  exact exists_congr fun k => iff_of_eq (true_and _).symm

/-- The words of letters that an expression describes. -/
def Expr.language : Expr → Language Letter
  | empty => 1
  | letter x => {[x]}
  | concat a b => a.language * b.language
  | alternation a b => a.language + b.language
  | opt e => 1 + e.language
  | star e => e.language∗
  | plus e => e.language * e.language∗
  | count min max e => repetitions (CountAllows min max) e.language

/-! ## Derivations -/

/-- How far a derivation has come: the number of letters it has read, and its place in the
buffer. -/
structure Progress where
  letters : Nat
  pos : Nat
deriving DecidableEq

/-- The `k`-fold composition of a relation with itself. -/
def composePower {α : Type} (R : α → α → Prop) : Nat → α → α → Prop
  | 0 => Eq
  | k + 1 => Relation.Comp (composePower R k) R

/-- From where to where an expression leads in a buffer. -/
def Expr.Derives (buffer : Buffer) : Expr → Progress → Progress → Prop
  | empty => Eq
  | letter x => fun c d => d.letters = c.letters + 1 ∧ x.Moves buffer c.pos d.pos
  | concat a b => Relation.Comp (a.Derives buffer) (b.Derives buffer)
  | alternation a b => fun c d => a.Derives buffer c d ∨ b.Derives buffer c d
  | opt e => Relation.ReflGen (e.Derives buffer)
  | star e => Relation.ReflTransGen (e.Derives buffer)
  | plus e => Relation.TransGen (e.Derives buffer)
  | count min max e => fun c d =>
    ∃ k, CountAllows min max k ∧ composePower (e.Derives buffer) k c d

/-- From where to where the words of a language lead. -/
def Spans (buffer : Buffer) (L : Language Letter) (c d : Progress) : Prop :=
  ∃ w ∈ L, d.letters = c.letters + w.length ∧ WordMoves (Letter.Moves buffer) w c.pos d.pos

variable {buffer : Buffer} {L M : Language Letter} {c d : Progress}

theorem spans_one : Spans buffer 1 = Eq := by
  funext c d
  refine propext ⟨?_, ?_⟩
  · rintro ⟨w, rfl, hn, hp⟩
    cases c
    cases d
    simp only [List.length_nil, Nat.add_zero, WordMoves] at hn hp
    rw [hn, hp]
  · rintro rfl
    exact ⟨[], rfl, rfl, rfl⟩

theorem spans_mul : Spans buffer (L * M) = Relation.Comp (Spans buffer L) (Spans buffer M) := by
  funext c d
  refine propext ⟨?_, ?_⟩
  · rintro ⟨_, ⟨v, hv, w, hw, rfl⟩, hn, hp⟩
    obtain ⟨k, hk, hp⟩ := wordMoves_append.mp hp
    refine ⟨⟨c.letters + v.length, k⟩, ⟨v, hv, rfl, hk⟩, w, hw, ?_, hp⟩
    rw [hn, List.length_append, Nat.add_assoc]
  · rintro ⟨m, ⟨v, hv, hn, hp⟩, w, hw, hn', hp'⟩
    refine ⟨v ++ w, ⟨v, hv, w, hw, rfl⟩, ?_, wordMoves_append.mpr ⟨m.pos, hp, hp'⟩⟩
    rw [hn', hn, List.length_append, Nat.add_assoc]

theorem spans_add : Spans buffer (L + M) c d ↔ Spans buffer L c d ∨ Spans buffer M c d := by
  constructor
  · rintro ⟨w, hw | hw, h⟩
    · exact .inl ⟨w, hw, h⟩
    · exact .inr ⟨w, hw, h⟩
  · rintro (⟨w, hw, h⟩ | ⟨w, hw, h⟩)
    · exact ⟨w, .inl hw, h⟩
    · exact ⟨w, .inr hw, h⟩

theorem spans_pow (k : Nat) : Spans buffer (L ^ k) = composePower (Spans buffer L) k := by
  induction k with
  | zero => rw [pow_zero, spans_one]; rfl
  | succ k ih => rw [pow_succ, spans_mul, ih]; rfl

theorem spans_repetitions (allows : Nat → Prop) :
    Spans buffer (repetitions allows L) c d ↔
      ∃ k, allows k ∧ composePower (Spans buffer L) k c d := by
  constructor
  · rintro ⟨w, ⟨k, hk, hw⟩, h⟩
    refine ⟨k, hk, ?_⟩
    rw [← spans_pow]
    exact ⟨w, hw, h⟩
  · rintro ⟨k, hk, h⟩
    rw [← spans_pow] at h
    obtain ⟨w, hw, h⟩ := h
    exact ⟨w, ⟨k, hk, hw⟩, h⟩

theorem reflTransGen_iff_composePower {α : Type} {R : α → α → Prop} {a b : α} :
    Relation.ReflTransGen R a b ↔ ∃ k, composePower R k a b := by
  constructor
  · intro h
    induction h with
    | refl => exact ⟨0, rfl⟩
    | tail _ h ih =>
      obtain ⟨k, hk⟩ := ih
      exact ⟨k + 1, _, hk, h⟩
  · rintro ⟨k, hk⟩
    induction k generalizing b with
    | zero => exact hk ▸ .refl
    | succ k ih =>
      obtain ⟨m, hm, h⟩ := hk
      exact (ih hm).tail h

theorem spans_kstar : Spans buffer L∗ = Relation.ReflTransGen (Spans buffer L) := by
  funext c d
  rw [kstar_eq_repetitions]
  refine propext ((spans_repetitions _).trans (Iff.trans ?_ reflTransGen_iff_composePower.symm))
  exact exists_congr fun k => iff_of_eq (true_and _)

/-- **A derivation is a word of the language whose letters can be read one after another.** -/
theorem Expr.derives_iff (e : Expr) : e.Derives buffer = Spans buffer e.language := by
  induction e with
  | empty => exact spans_one.symm
  | letter x =>
    funext c d
    refine propext ⟨fun ⟨hn, hp⟩ => ⟨[x], rfl, hn, d.pos, hp, rfl⟩, ?_⟩
    rintro ⟨_, rfl, hn, k, hp, hk⟩
    exact ⟨hn, (show d.pos = k from hk) ▸ hp⟩
  | concat a b iha ihb => rw [Derives, language, iha, ihb, spans_mul]
  | alternation a b iha ihb =>
    funext c d
    rw [Derives, language, iha, ihb]
    exact (propext spans_add).symm
  | opt e ih =>
    funext c d
    rw [Derives, language, ih]
    refine propext (Iff.trans ?_ spans_add.symm)
    rw [Relation.reflGen_iff, spans_one, eq_comm]
  | star e ih => rw [Derives, language, ih, spans_kstar]
  | plus e ih =>
    funext c d
    rw [Derives, language, ih, spans_mul, spans_kstar]
    exact propext Relation.TransGen.head'_iff
  | count min max e ih =>
    funext c d
    rw [Derives, language, ih]
    exact (propext (spans_repetitions _)).symm

end ByteRegex
