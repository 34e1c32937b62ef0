import ByteRegex.Proofs.Pattern.Parse

/-!
# Why a pattern has no tree

The lexer finds what is wrong with single tokens and looks at no structure
(`failsWith_tokenize`). What is wrong with the structure is found in two steps. Reordering fails
exactly if the groups do not close, which is to say that some prefix closes more groups than it
opens or that not all of them are closed (`Token.unbalanced_iff`). Building a tree from what was
reordered fails if an operator lacks an operand, or if operands are left over. The second never
happens: the number of operands left over is the balance of the tokens, which is at most one where
juxtaposition is explicit.

So the error of a pattern with tokens is told from its groups and from the grammar alone
(`Tree.ofTokens_eq_unbalanced_iff`, `Tree.ofTokens_eq_missingOperand_iff`).
-/

namespace ByteRegex

variable {t : Token} {ts : List Token} {opened : Nat}

/-- Whether an error is about how tokens go together, and not about one of them. -/
def SyntaxError.isStructural : SyntaxError → Bool
  | unbalancedParenthesis | missingOperand | danglingOperands _ => true
  | _ => false

/-! ## The lexer -/

namespace Lexer

/-- The errors about single tokens. -/
abbrev IsLexical (e : SyntaxError) : Prop := e.isStructural = false

section Counts

theorem failsWith_digit (s : CountState) (c : Byte) : FailsWith IsLexical (s.digit c) := by
  unfold CountState.digit
  dsimp only
  split
  · exact .error rfl
  · split
    · exact .error rfl
    · exact .ok _

theorem failsWith_comma (s : CountState) : FailsWith IsLexical s.comma := by
  unfold CountState.comma
  split
  · exact .ok _
  · exact .error rfl

theorem failsWith_closeCount (s : CountState) : FailsWith IsLexical s.close := by
  unfold CountState.close
  split
  · exact .error rfl
  · exact .ok _
  · exact .ok _
  · split
    · exact .error rfl
    · exact .ok _

theorem failsWith_countStep (s : CountState) (c : Byte) : FailsWith IsLexical (countStep s c) := by
  unfold countStep
  split
  · exact .map _ (failsWith_digit s c)
  · split
    · exact .ok _
    · split
      · exact .map _ (failsWith_comma s)
      · exact .error rfl
    · exact .map _ (failsWith_closeCount s)
    · exact .error rfl

end Counts

section Brackets

theorem failsWith_literal (s : BracketState) (b : Byte) : FailsWith IsLexical (s.literal b) := by
  unfold BracketState.literal
  split
  · split
    · exact .error rfl
    · exact .ok _
  · exact .ok _

theorem failsWith_dash (s : BracketState) : FailsWith IsLexical s.dash := by
  unfold BracketState.dash
  split
  · exact .ok _
  · exact .error rfl

theorem failsWith_wildcard (s : BracketState) (w : Wildcard) :
    FailsWith IsLexical (s.wildcard w) := by
  unfold BracketState.wildcard
  split
  · exact .error rfl
  · exact .ok _

theorem failsWith_closeBracket (s : BracketState) : FailsWith IsLexical s.close := by
  unfold BracketState.close
  split
  · exact .error rfl
  · split
    · exact .error rfl
    · exact .ok _

theorem failsWith_bracketStep (s : BracketState) (c : Byte) :
    FailsWith IsLexical (bracketStep s c) := by
  unfold bracketStep
  split
  · exact .map _ (failsWith_closeBracket s)
  · exact .map _ (failsWith_dash s)
  · exact .ok _
  · exact .map _ (failsWith_literal s c)

theorem failsWith_bracketEscapeStep (s : BracketState) (c : Byte) :
    FailsWith IsLexical (bracketEscapeStep s c) := by
  unfold bracketEscapeStep
  split
  · exact .map _ (failsWith_literal s _)
  · exact .map _ (failsWith_wildcard s _)
  · exact .error rfl
  · exact .error rfl

end Brackets

theorem failsWith_step (m : Mode) (c : Byte) : FailsWith IsLexical (step m c) := by
  cases m with
  | plain => exact .ok _
  | escape =>
    rw [step, escapeStep]
    split
    · exact .ok _
    · exact .error rfl
  | count s => exact failsWith_countStep s c
  | bracketStart =>
    rw [step]
    split
    · exact .ok _
    · exact failsWith_bracketStep _ c
  | bracket s => exact failsWith_bracketStep s c
  | bracketEscape s => exact failsWith_bracketEscapeStep s c

theorem failsWith_run (m : Mode) (p : List Byte) : FailsWith IsLexical (run m p) := by
  induction p generalizing m with
  | nil => exact .ok _
  | cons c p ih =>
    rw [run]
    exact (failsWith_step m c).bind fun _ _ => (ih _).bind fun _ _ => .ok _

theorem failsWith_finish (m : Mode) : FailsWith IsLexical (finish m) := by
  cases m with
  | plain => exact .ok _
  | _ => exact .error rfl

end Lexer

/-- **The lexer looks at no structure.** -/
theorem failsWith_tokenize (pattern : List Byte) :
    FailsWith Lexer.IsLexical (tokenize pattern) := by
  unfold tokenize
  split
  · exact .error rfl
  · refine (Lexer.failsWith_run _ _).bind fun _ _ => ?_
    exact (Lexer.failsWith_finish _).bind fun _ _ => .ok _

/-! ## Groups -/

namespace Token

/-- Some prefix closes more groups than it opens, or the totals differ. -/
def Unbalanced (ts : List Token) : Prop :=
  (∃ us, us <+: ts ∧ us.count openGroup < us.count closeGroup) ∨
    ts.count openGroup ≠ ts.count closeGroup

theorem closes_iff : Closes opened ts ↔
    (∀ us, us <+: ts → us.count closeGroup ≤ opened + us.count openGroup) ∧
      opened + ts.count openGroup = ts.count closeGroup := by
  induction ts generalizing opened with
  | nil => simp [Closes]
  | cons t ts ih =>
    -- a prefix is empty, or begins with the first token
    have hcons : ∀ P : List Token → Prop,
        (∀ us, us <+: t :: ts → P us) ↔ P [] ∧ ∀ us, us <+: ts → P (t :: us) := by
      intro P
      simp only [List.prefix_cons_iff]
      constructor
      · intro h
        exact ⟨h [] (.inl rfl), fun us hus => h _ (.inr ⟨us, rfl, hus⟩)⟩
      · rintro ⟨hnil, hcons⟩ us (rfl | ⟨us, rfl, hus⟩)
        · exact hnil
        · exact hcons us hus
    rw [hcons]
    cases t with
    | openGroup => simp [Closes, ih, Nat.add_assoc, Nat.add_comm 1]
    | closeGroup =>
      simp only [Closes, ih, List.count_nil, List.count_cons_self, ne_eq, reduceCtorEq,
        not_false_eq_true, List.count_cons_of_ne]
      constructor
      · rintro ⟨hpos, hus, htotal⟩
        refine ⟨⟨Nat.zero_le _, fun us h => ?_⟩, by omega⟩
        have := hus us h
        omega
      · rintro ⟨⟨-, hus⟩, htotal⟩
        have hpos : 0 + 1 ≤ opened + 0 := hus [] List.nil_prefix
        refine ⟨by omega, fun us h => ?_, by omega⟩
        have := hus us h
        omega
    | _ => simp [Closes, ih]

theorem unbalanced_iff : Unbalanced ts ↔ ¬ Closes 0 ts := by
  rw [closes_iff, not_and_or]
  simp only [Unbalanced, Nat.zero_add, not_forall, Nat.not_le, exists_prop]

theorem failsWith_place (stack : List Waiting) (ts : List Token) :
    FailsWith (· = .unbalancedParenthesis) (place stack ts) := by
  induction ts generalizing stack with
  | nil =>
    rw [place]
    split
    · exact .ok _
    · exact .error rfl
  | cons t ts ih =>
    rcases exists_settles stack t with ⟨now, stack', hs⟩ | ⟨-, -, herror⟩
    · rw [hs.place_eq]
      exact (ih stack').map _
    · rw [herror]
      exact .error rfl

end Token

/-! ## Operands -/

namespace Tree

variable {nodes : Array Node} {stack : List Nat}

/-- What is left over after a token that changes the height of the stack by its weight is left over
after the tokens that begin with it. -/
theorem failsWith_build_cons {α : Type} {stack' : List Nat} {built : Except SyntaxError α}
    (hlength : (stack'.length : Int) = stack.length + t.weight)
    (h : FailsWith (fun e => e = .missingOperand ∨ 2 ≤ stack'.length + Token.balance ts) built) :
    FailsWith (fun e => e = .missingOperand ∨ 2 ≤ stack.length + Token.balance (t :: ts)) built :=
  h.mono fun _ he => he.imp_right fun hle => by
    rw [Token.balance_cons]
    omega

/-- If operands are left over, then the tokens leave more than one on the stack. -/
theorem failsWith_build (hmarks : ∀ t ∈ ts, t.role ≠ .groupMark) :
    FailsWith (fun e => e = .missingOperand ∨ 2 ≤ stack.length + Token.balance ts)
      (build nodes stack ts) := by
  fun_induction build nodes stack ts with
  | case1 => exact .ok _
  | case2 => exact .error (.inl rfl)
  | case3 nodes stack hone hnone =>
    refine .error (.inr ?_)
    rcases stack with _ | ⟨root, _ | ⟨next, stack⟩⟩
    · exact (hnone rfl).elim
    · exact (hone root rfl).elim
    · push_cast [Token.balance_nil, List.length_cons]
      omega
  | case4 nodes t ts stack hrole ih =>
    refine failsWith_build_cons ?_ (ih (List.forall_mem_cons.mp hmarks).2)
    simp [Token.weight, hrole]
  | case5 nodes t ts operand stack hrole ih =>
    refine failsWith_build_cons ?_ (ih (List.forall_mem_cons.mp hmarks).2)
    simp [Token.weight, hrole]
  | case6 nodes t ts right left stack hrole ih =>
    refine failsWith_build_cons ?_ (ih (List.forall_mem_cons.mp hmarks).2)
    simp [Token.weight, hrole]
  | case7 nodes stack t ts hrole => exact absurd hrole (hmarks t List.mem_cons_self)
  | case8 => exact .error (.inl rfl)

/-- **Where the groups close, nothing but an operand can be missing.** -/
theorem failsWith_ofTokens (hj : Token.Joined false ts) (hc : Token.Closes 0 ts) :
    FailsWith (· = .missingOperand) (ofTokens ts) := by
  unfold ofTokens
  split
  · exact .ok _
  · have hreorder : ∃ us, Token.reorder ts = .ok us := Token.place_isOk_iff.mpr hc
    obtain ⟨us, hus⟩ := hreorder
    have hperm := Token.perm_of_place hus
    rw [List.flatMap_nil, List.nil_append] at hperm
    have hmarks : ∀ t ∈ us, t.role ≠ .groupMark := by
      intro t ht
      exact of_decide_eq_true (List.mem_filter.mp (hperm.mem_iff.mp ht)).2
    -- as many operands are left over as the tokens have too many
    have hbalance : Token.balance us ≤ 1 := by
      rw [Token.balance_eq_of_perm hperm, Token.balance_filter_marks]
      exact hj.balance_le
    rw [bind_of_eq_ok hus]
    refine (failsWith_build hmarks).mono fun e he => he.resolve_right ?_
    rw [List.length_nil]
    omega

theorem ofTokens_eq_unbalanced_iff (hj : Token.Joined false ts) (hne : ts ≠ []) :
    ofTokens ts = .error .unbalancedParenthesis ↔ Token.Unbalanced ts := by
  rw [Token.unbalanced_iff]
  constructor
  · intro h hc
    cases failsWith_ofTokens hj hc _ h
  · intro hc
    rw [ofTokens, if_neg (by simp [hne])]
    cases h : Token.reorder ts with
    | ok us => exact absurd (Token.place_isOk_iff.mp ⟨us, h⟩) hc
    | error e =>
      obtain rfl := Token.failsWith_place [] ts e h
      rfl

theorem ofTokens_eq_missingOperand_iff (hj : Token.Joined false ts) (hne : ts ≠ []) :
    ofTokens ts = .error .missingOperand ↔
      ¬ Token.Unbalanced ts ∧ ¬ ∃ s, Derives .alternatives ts s := by
  constructor
  · intro h
    refine ⟨fun hunbalanced => ?_, ?_⟩
    · cases h.symm.trans ((ofTokens_eq_unbalanced_iff hj hne).mpr hunbalanced)
    · rintro ⟨s, hs⟩
      obtain ⟨nodes, root, hts, -⟩ := hs.ofTokens_eq
      cases h.symm.trans hts
  · rintro ⟨hbalanced, hderives⟩
    have hc : Token.Closes 0 ts := not_not.mp fun hc => hbalanced (Token.unbalanced_iff.mpr hc)
    cases h : ofTokens ts with
    | ok tree => exact absurd (derives_of_ofTokens hj hne h) hderives
    | error e =>
      obtain rfl := failsWith_ofTokens hj hc e h
      rfl

/-- **No pattern leaves operands over.** -/
theorem failsWith_parse (pattern : List Byte) :
    FailsWith (fun e => ∀ n, e ≠ .danglingOperands n) (parse pattern) := by
  refine ((failsWith_tokenize pattern).mono ?_).bind fun ts ht => ?_
  · rintro e he n rfl
    cases he
  · intro e he n
    rintro rfl
    by_cases hc : Token.Closes 0 ts
    · cases failsWith_ofTokens (joined_of_tokenize ht) hc _ he
    · have hne : ts ≠ [] := by
        rintro rfl
        exact hc rfl
      have hunbalanced := Token.unbalanced_iff.mpr hc
      cases he.symm.trans ((ofTokens_eq_unbalanced_iff (joined_of_tokenize ht) hne).mpr hunbalanced)

end Tree

end ByteRegex
