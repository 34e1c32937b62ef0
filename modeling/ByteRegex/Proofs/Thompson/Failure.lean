import ByteRegex.Proofs.Pattern.Compose
import ByteRegex.Proofs.Thompson.Recursion

/-!
# Why a tree has no fragment

The construction has errors of its own for trees that are not well formed: for group marks, and for
operators without operands. The tree of a pattern is laid out by its token tree, in which each token
has the operands that its role asks for. So what is left is the budget (`Nfa.failsWith_ofTree`).
-/

namespace ByteRegex

open Thompson

variable {cfg : Settings} {budget : Nat} {t : Token}

/-- That a fragment exceeds the budget. -/
abbrev IsOverBudget (budget : Nat) (e : CompileError) : Prop := e = .budgetExceeded budget

namespace Thompson

theorem failsWith_withinBudget (budget : Nat) (f : Fragment) :
    FailsWith (IsOverBudget budget) (withinBudget budget f) := by
  unfold withinBudget
  split
  · exact .ok _
  · exact .error rfl

theorem failsWith_appendCopies (piece : Fragment) (n : Nat) (whole : Option Fragment) :
    FailsWith (IsOverBudget budget) (appendCopies budget piece n whole) := by
  induction n generalizing whole with
  | zero => exact .ok _
  | succ n ih => exact (failsWith_withinBudget budget _).bind fun _ _ => ih _

theorem failsWith_nestOptional (piece : Fragment) (n : Nat) (tail : Fragment) :
    FailsWith (IsOverBudget budget) (nestOptional budget piece n tail) := by
  induction n generalizing tail with
  | zero => exact .ok _
  | succ n ih => exact (failsWith_withinBudget budget _).bind fun _ _ => ih _

theorem failsWith_repeated (piece : Fragment) (min : Nat) (max : Option Nat) :
    FailsWith (IsOverBudget budget) (repeated budget piece min max) := by
  refine (failsWith_appendCopies piece min none).bind fun whole _ => ?_
  cases max with
  | none => exact failsWith_withinBudget budget _
  | some max =>
    dsimp only
    split
    · refine (failsWith_nestOptional piece _ _).bind fun tail _ => ?_
      exact failsWith_withinBudget budget _
    · exact .ok _

end Thompson

/-- A token with one operand can only fail for the size of what it makes of it. -/
theorem Token.failsWith_unaryFragment (ht : t.role = .unary) (f : Fragment) :
    FailsWith (IsOverBudget cfg.budget) (t.unaryFragment cfg f) := by
  cases t with
  | op o =>
    cases o with
    | plus | star | opt => exact .ok _
    | concat | alternation | bracketAlternation => cases ht
  | count min max => exact failsWith_repeated f min max
  | _ => cases ht

/-- **The fragment of a token tree can only be too large.** -/
theorem TokenTree.failsWith_compile (s : TokenTree) (classes : Array ByteClass) :
    FailsWith (IsOverBudget cfg.budget) (s.compile cfg classes) := by
  induction s generalizing classes with
  | leaf t ht => exact (failsWith_withinBudget _ _).bind fun _ _ => .ok _
  | unary t ht s ih =>
    refine (ih classes).bind fun p _ => ?_
    refine (Token.failsWith_unaryFragment ht p.1).bind fun g _ => ?_
    exact (failsWith_withinBudget _ g).bind fun _ _ => .ok _
  | binary t ht a b iha ihb =>
    refine (iha classes).bind fun p _ => ?_
    refine (ihb p.2).bind fun q _ => ?_
    exact (failsWith_withinBudget _ _).bind fun _ _ => .ok _

namespace Nfa

variable {pattern : List Byte} {tree : Tree}

/-- **The tree of a pattern has a fragment, unless it is too large.** -/
theorem failsWith_ofTree (htree : Tree.parse pattern = .ok tree) :
    FailsWith (IsOverBudget cfg.budget) (ofTree cfg tree) := by
  by_cases hpattern : pattern = []
  · subst hpattern
    obtain rfl := Except.ok.inj htree
    exact .ok _
  · obtain ⟨s, -, -, hordered⟩ := Tree.exists_writes_of_parse hpattern htree
    rw [ofTree_eq_of_ofOrdered hordered]
    exact (TokenTree.failsWith_compile s #[]).map _

end Nfa

end ByteRegex
