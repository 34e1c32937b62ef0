import ByteRegex.Proofs.Expression
import ByteRegex.Proofs.Pattern.Grammar

/-!
# The expression of a token tree

A token tree (`TokenTree`) stands for an expression (`TokenTree.expr`): each token says what it
makes of the expressions of its operands. An arena that represents a token tree denotes that
expression (`Tree.Represents.denotes`).
-/

namespace ByteRegex

/-! ## Tokens -/

namespace Token

/-- What a token with one operand makes of the expression of the operand. -/
def applyUnary : Token → Expr → Expr
  | op .plus => .plus
  | op .star => .star
  | op .opt => .opt
  | count min max => .count min max
  | _ => id

/-- What a token with two operands makes of their expressions. -/
def applyBinary : Token → Expr → Expr → Expr
  | op .concat => .concat
  | _ => .alternation

/-- An operand has a letter. -/
theorem exists_letter? {t : Token} (ht : t.role = .operand) : ∃ x, t.letter? = some x := by
  cases t with
  | byte b => exact ⟨_, rfl⟩
  | wildcard w => exact ⟨_, rfl⟩
  | anchor a => exact ⟨_, rfl⟩
  | byteClass c => exact ⟨_, rfl⟩
  | op o => cases o <;> cases ht
  | count _ _ | openGroup | closeGroup => cases ht

end Token

/-! ## Trees -/

/-- The expression of a token tree. -/
def TokenTree.expr : TokenTree → Expr
  | leaf t _ => (t.letter?.map Expr.letter).getD .empty
  | unary t _ operand => t.applyUnary operand.expr
  | binary t _ left right => t.applyBinary left.expr right.expr

namespace Tree

variable {nodes : Array Node} {id : Nat} {s s' : TokenTree} {tree : Tree}

theorem Holds.unfolds (h : Holds nodes id s) : Unfolds nodes id s.expr := by
  induction h with
  | leaf ht hn =>
    obtain ⟨x, hx⟩ := Token.exists_letter? ht
    rw [TokenTree.expr, hx]
    exact .letter hn hx
  | @unary id c t s ht hn _ ih =>
    cases t with
    | op o =>
      cases o with
      | plus => exact .plus hn ih
      | star => exact .star hn ih
      | opt => exact .opt hn ih
      | concat | alternation | bracketAlternation => cases ht
    | count min max => exact .count hn ih
    | _ => cases ht
  | @binary id l r t a b ht hn _ _ iha ihb =>
    cases t with
    | op o =>
      cases o with
      | concat => exact .concat hn iha ihb
      | alternation => exact .alternation hn (.inl rfl) iha ihb
      | bracketAlternation => exact .alternation hn (.inr rfl) iha ihb
      | plus | star | opt => cases ht
    | _ => cases ht

/-- The token tree of an arena is the one below its root. -/
def Represents (tree : Tree) (s : TokenTree) : Prop :=
  ∃ root, tree.root = some root ∧ Holds tree.nodes root s

theorem Represents.unique (h : tree.Represents s) (h' : tree.Represents s') : s = s' := by
  obtain ⟨root, hroot, hs⟩ := h
  obtain ⟨root', hroot', hs'⟩ := h'
  cases hroot.symm.trans hroot'
  exact hs.unique hs'

/-- **An arena denotes the expression of its token tree.** -/
theorem Represents.denotes (h : tree.Represents s) : tree.Denotes s.expr := by
  obtain ⟨root, hroot, hs⟩ := h
  rw [Denotes, hroot]
  exact hs.unfolds

end Tree

end ByteRegex
