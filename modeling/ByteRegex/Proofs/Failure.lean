import ByteRegex.Proofs.Pattern.Failure
import ByteRegex.Proofs.Regex
import ByteRegex.Proofs.Thompson.Failure

/-!
# Why a pattern does not compile

A pattern is refused for its syntax, or because its fragment or its automaton is too large. The
errors that are about ill-formed trees never appear, because the stages before do not make any
(`Regex.failsWith_compile`).
-/

namespace ByteRegex

/-- A fragment has an automaton, unless that is too large. -/
theorem Nfa.failsWith_reduce (nfa : Nfa) (limit : Nat) :
    FailsWith (fun e => ∃ states, limit < states ∧ e = .automatonTooLarge states limit)
      (nfa.reduce limit) := by
  unfold reduce Reduction.toAutomaton
  split
  · next hlt => exact .error ⟨_, hlt, rfl⟩
  · exact .ok _

namespace Regex

/-- What the error of a pattern can be: one of its syntax, of the budget of its fragment, or of the
limit of its automaton. -/
inductive Fails (pattern : List Byte) : RegexError → Prop where
  | syntactic {s : SyntaxError} : Tree.parse pattern = .error s → (∀ n, s ≠ .danglingOperands n) →
    Fails pattern (.inSyntax s)
  | overBudget : Fails pattern (.inCompilation (.budgetExceeded 32768))
  | tooLarge {states : Nat} : 4096 < states →
    Fails pattern (.inCompilation (.automatonTooLarge states 4096))

/-- **The errors about ill-formed trees never appear.** -/
theorem failsWith_compile (pattern : List Byte) (flags : Flags) :
    FailsWith (Fails pattern) (compile pattern flags) := by
  refine FailsWith.bind ?_ fun tree htree => FailsWith.bind ?_ fun nfa _ => FailsWith.bind ?_ ?_
  · intro e he
    cases hparse : Tree.parse pattern with
    | ok tree =>
      rw [hparse] at he
      cases he
    | error s =>
      rw [hparse] at he
      obtain rfl := Except.error.inj he
      exact .syntactic hparse (Tree.failsWith_parse pattern s hparse)
  · refine (Nfa.failsWith_ofTree (mapError_eq_ok_iff.mp htree)).mapError ?_
    rintro e rfl
    exact .overBudget
  · refine (nfa.failsWith_reduce maxAutomatonStates).mapError ?_
    rintro e ⟨states, hlt, rfl⟩
    exact .tooLarge hlt
  · exact fun _ _ => .ok _

/-- **Errors are told apart exactly.** Of a pattern with tokens, the groups are unbalanced if and
only if that is what is reported, and otherwise an operand is reported missing if and only if the
tokens do not derive from the grammar; operands are never left over. With any flags, a pattern fails
to compile for its syntax or for its size only. -/
theorem failure_classified (pattern : List Byte) :
    (∀ ts, pattern ≠ [] → tokenize pattern = .ok ts →
      (Tree.parse pattern = .error .unbalancedParenthesis ↔ Token.Unbalanced ts) ∧
      (Tree.parse pattern = .error .missingOperand ↔
        ¬ Token.Unbalanced ts ∧ ¬ ∃ s, Derives .alternatives ts s) ∧
      ∀ n, Tree.parse pattern ≠ .error (.danglingOperands n)) ∧
    ∀ flags e, compile pattern flags = .error e → Fails pattern e := by
  constructor
  · intro ts hpattern ht
    have hj := Tree.joined_of_tokenize ht
    have hne : ts ≠ [] := by
      rintro rfl
      exact hpattern (tokenize_eq_ok_nil_iff.mp ht)
    refine ⟨?_, ?_, fun n h => Tree.failsWith_parse pattern _ h n rfl⟩
    · rw [Tree.parse_eq ht]
      exact Tree.ofTokens_eq_unbalanced_iff hj hne
    · rw [Tree.parse_eq ht]
      exact Tree.ofTokens_eq_missingOperand_iff hj hne
  · exact failsWith_compile pattern

/-- The pattern `)(`, whose groups have the same number of marks, and the pattern `a|`. -/
theorem failure_classified_structure :
    Token.Unbalanced [.closeGroup, .op .concat, .openGroup] ∧
    Tree.parse [0x29, 0x28] = .error .unbalancedParenthesis ∧
    (¬ ∃ s, Derives .alternatives [.byte 0x61, .op .alternation] s) ∧
    compile [0x61, 0x7C] {} = .error (.inSyntax .missingOperand) ∧
    Fails [0x61, 0x7C] (.inSyntax .missingOperand) := by
  have hclose : tokenize [0x29, 0x28] = .ok [.closeGroup, .op .concat, .openGroup] := by cbv
  have hbar : tokenize [0x61, 0x7C] = .ok [.byte 0x61, .op .alternation] := by cbv
  have hparse : Tree.parse [0x29, 0x28] = .error .unbalancedParenthesis := by cbv
  have hmissing : Tree.parse [0x61, 0x7C] = .error .missingOperand := by cbv
  obtain ⟨hunbalanced, -, -⟩ := (failure_classified [0x29, 0x28]).1 _ (by simp) hclose
  obtain ⟨htokens, hfails⟩ := failure_classified [0x61, 0x7C]
  obtain ⟨-, hoperand, -⟩ := htokens _ (by simp) hbar
  have hcompile : compile [0x61, 0x7C] {} = .error (.inSyntax .missingOperand) := by cbv
  exact ⟨hunbalanced.mp hparse, hparse, (hoperand.mp hmissing).2, hcompile, hfails {} _ hcompile⟩

end Regex

end ByteRegex
