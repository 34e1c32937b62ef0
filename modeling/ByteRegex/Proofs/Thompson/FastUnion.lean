import ByteRegex.Proofs.Fragment.Refine
import ByteRegex.Proofs.Thompson.Recursion
import Mathlib.Data.Option.Basic

/-!
# Merging alternatives refines the construction

Where alternatives are merged, whatever the construction builds refines what it builds otherwise.
Each check of the budget passes again, since there are not more states, so the construction succeeds
wherever it does without merging (`TokenTree.exists_compile_fastUnion`).
-/

namespace ByteRegex

open Fragment

namespace Thompson

variable {budget n : Nat} {f g k l r l' r' : Fragment} {whole whole' done : Option Fragment}

theorem refines_alternate (hl : l.Refines l') (hr : r.Refines r') :
    (alternate true l r).Refines (alternate false l' r') := by
  show (alternate true l r).Refines (l'.union r')
  unfold alternate
  split
  · next h2 => exact .fastUnion_left hl hr h2
  · split
    · next h2 => exact .fastUnion_right hl hr h2
    · exact .union hl hr

theorem exists_withinBudget (h : f.Refines g) (hg : withinBudget budget g = .ok k) :
    ∃ f', withinBudget budget f = .ok f' ∧ f'.Refines k := by
  obtain ⟨rfl, hsize⟩ := withinBudget_eq_ok_iff.mp hg
  exact ⟨f, withinBudget_eq_ok_iff.mpr ⟨rfl, Nat.le_trans h.size_le hsize⟩, h⟩

/-! ## Repetition counts -/

theorem exists_append (hwhole : Option.Rel Refines whole whole') (h : f.Refines g)
    (hk : append budget whole' g = .ok k) :
    ∃ f', append budget whole f = .ok f' ∧ f'.Refines k := by
  cases hwhole with
  | none => exact exists_withinBudget h hk
  | some hw => exact exists_withinBudget (hw.concat h) hk

theorem exists_appendCopies (hwhole : Option.Rel Refines whole whole') (h : f.Refines g)
    (hdone : appendCopies budget g n whole' = .ok done) :
    ∃ done', appendCopies budget f n whole = .ok done' ∧ Option.Rel Refines done' done := by
  induction n generalizing whole whole' with
  | zero =>
    obtain rfl := Except.ok.inj hdone
    exact ⟨whole, rfl, hwhole⟩
  | succ n ih =>
    obtain ⟨k, hk, hdone⟩ := bind_eq_ok hdone
    obtain ⟨f', hf', hrefines⟩ := exists_append hwhole h hk
    obtain ⟨done', hdone', hrel⟩ := ih (.some hrefines) hdone
    exact ⟨done', (bind_of_eq_ok hf').trans hdone', hrel⟩

theorem exists_nestOptional {tail tail' : Fragment} (htail : tail.Refines tail')
    (h : f.Refines g) (hk : nestOptional budget g n tail' = .ok k) :
    ∃ f', nestOptional budget f n tail = .ok f' ∧ f'.Refines k := by
  induction n generalizing tail tail' with
  | zero =>
    obtain rfl := Except.ok.inj hk
    exact ⟨tail, rfl, htail⟩
  | succ n ih =>
    obtain ⟨t', ht', hk⟩ := bind_eq_ok hk
    obtain ⟨t, ht, hrefines⟩ := exists_withinBudget (h.concat htail).opt ht'
    obtain ⟨f', hf', hrefines'⟩ := ih hrefines hk
    exact ⟨f', (bind_of_eq_ok ht).trans hf', hrefines'⟩

theorem exists_repeated {min : Nat} {max : Option Nat} (h : f.Refines g)
    (hk : repeated budget g min max = .ok k) :
    ∃ f', repeated budget f min max = .ok f' ∧ f'.Refines k := by
  obtain ⟨whole', hwhole', hk⟩ := bind_eq_ok hk
  obtain ⟨whole, hwhole, hrel⟩ := exists_appendCopies .none h hwhole'
  rw [repeated, bind_of_eq_ok hwhole]
  cases max with
  | none => exact exists_append hrel h.star hk
  | some max =>
    dsimp only at hk ⊢
    split at hk
    · next hlt =>
      obtain ⟨tail', htail', hk⟩ := bind_eq_ok hk
      obtain ⟨tail, htail, hrefines⟩ := exists_nestOptional h.opt h htail'
      rw [if_pos hlt, bind_of_eq_ok htail]
      exact exists_append hrel hrefines hk
    · next hle =>
      obtain rfl := Except.ok.inj hk
      refine ⟨whole.getD .epsilon, if_neg hle, ?_⟩
      cases hrel with
      | none => exact .refl .epsilon
      | some hw => exact hw

end Thompson

/-! ## Trees -/

open Thompson

variable {budget : Nat} {t : Token} {s : TokenTree} {f g k : Fragment}
  {classes classes' : Array ByteClass}

theorem Token.exists_unaryFragment (ht : t.role = .unary) (h : f.Refines g)
    (hk : t.unaryFragment ⟨budget, false⟩ g = .ok k) :
    ∃ f', t.unaryFragment ⟨budget, true⟩ f = .ok f' ∧ f'.Refines k := by
  cases t with
  | op o =>
    cases o with
    | plus =>
      obtain rfl := Except.ok.inj hk
      exact ⟨_, rfl, h.plus⟩
    | star =>
      obtain rfl := Except.ok.inj hk
      exact ⟨_, rfl, h.star⟩
    | opt =>
      obtain rfl := Except.ok.inj hk
      exact ⟨_, rfl, h.opt⟩
    | concat | alternation | bracketAlternation => cases ht
  | count min max => exact exists_repeated h hk
  | _ => cases ht

theorem Token.refines_binaryFragment {l r l' r' : Fragment} (ht : t.role = .binary)
    (hl : l.Refines l') (hr : r.Refines r') :
    (t.binaryFragment ⟨budget, true⟩ l r).Refines (t.binaryFragment ⟨budget, false⟩ l' r') := by
  cases t with
  | op o =>
    cases o with
    | concat => exact hl.concat hr
    | alternation | bracketAlternation => exact refines_alternate hl hr
    | plus | star | opt => cases ht
  | _ => cases ht

/-- **Merging alternatives refines the fragment of a tree**, and fits the same budget. -/
theorem TokenTree.exists_compile_fastUnion
    (hg : s.compile ⟨budget, false⟩ classes = .ok (g, classes')) :
    ∃ f, s.compile ⟨budget, true⟩ classes = .ok (f, classes') ∧ f.Refines g := by
  induction s generalizing g classes classes' with
  | leaf t ht =>
    obtain ⟨rfl, rfl, hsize⟩ := compile_leaf_eq_ok_iff.mp hg
    exact ⟨_, compile_leaf_eq_ok_iff.mpr ⟨rfl, rfl, hsize⟩, .refl (.leaf _)⟩
  | unary t ht s ih =>
    obtain ⟨k, hk, hop, hsize⟩ := compile_unary_eq_ok_iff.mp hg
    obtain ⟨f, hf, hrefines⟩ := ih hk
    obtain ⟨f', hf', hrefines'⟩ := Token.exists_unaryFragment ht hrefines hop
    have hsize' := Nat.le_trans hrefines'.size_le hsize
    exact ⟨f', compile_unary_eq_ok_iff.mpr ⟨f, hf, hf', hsize'⟩, hrefines'⟩
  | binary t ht a b iha ihb =>
    obtain ⟨l', r', classes₁, hl', hr', rfl, hsize⟩ := compile_binary_eq_ok_iff.mp hg
    obtain ⟨l, hl, hrefinesl⟩ := iha hl'
    obtain ⟨r, hr, hrefinesr⟩ := ihb hr'
    have hrefines : (t.binaryFragment ⟨budget, true⟩ l r).Refines
        (t.binaryFragment ⟨budget, false⟩ l' r') :=
      Token.refines_binaryFragment ht hrefinesl hrefinesr
    have hsize' := Nat.le_trans hrefines.size_le hsize
    exact ⟨_, compile_binary_eq_ok_iff.mpr ⟨l, r, classes₁, hl, hr, rfl, hsize'⟩, hrefines⟩

end ByteRegex
