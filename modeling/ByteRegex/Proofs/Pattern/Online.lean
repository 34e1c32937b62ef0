import ByteRegex.Proofs.Pattern.Join

/-!
# The lexer works online

The lexer reads bytes one after another and never goes back. So what it makes of a text does not
depend on what follows, except at the end: where something is left open, the end itself is the
error. A text behind a pattern is read as if it were a pattern of its own, and only the
juxtaposition of the last operand of the one and the first of the other is made explicit
(`tokenize_append`).
-/

namespace ByteRegex

variable {p q : List Byte} {ts us : List Token} {e : SyntaxError}

/-- Whether an error says that the pattern ends too early. -/
def SyntaxError.isUnterminated : SyntaxError → Bool
  | unterminatedEscape | unterminatedBracket | unterminatedCount => true
  | _ => false

/-! ## Runs -/

namespace Lexer

variable {m : Mode}

theorem run_append_of_error (h : run m p = .error e) : run m (p ++ q) = .error e := by
  rw [run_append, h]
  rfl

/-- Behind a text that leaves nothing open, the lexer starts afresh. -/
theorem Emits.run_append (h : Emits p us) :
    run .plain (p ++ q) = (run .plain q).map fun r => (r.1, us ++ r.2) := by
  rw [Lexer.run_append, h]
  show (run .plain q >>= _) = _
  cases run .plain q <;> rfl

theorem isUnterminated_of_finish (h : finish m = .error e) : e.isUnterminated = true := by
  cases m with
  | plain => cases h
  | _ =>
    obtain rfl := Except.error.inj h
    rfl

end Lexer

/-- A pattern of allowed length is refused for a byte, or for its end. -/
theorem tokenize_eq_error_iff (hlength : p.length ≤ maxPatternLength) :
    tokenize p = .error e ↔ Lexer.run .plain p = .error e ∨
      ∃ m us, Lexer.run .plain p = .ok (m, us) ∧ Lexer.finish m = .error e := by
  unfold tokenize
  rw [if_neg (Nat.not_lt.mpr hlength)]
  refine bind_eq_error_iff.trans (or_congr_right ?_)
  constructor
  · rintro ⟨⟨m, us⟩, hrun, h⟩
    refine ⟨m, us, hrun, ?_⟩
    rcases bind_eq_error_iff.mp h with hfinish | ⟨_, _, h⟩
    · exact hfinish
    · cases h
  · rintro ⟨m, us, hrun, hfinish⟩
    exact ⟨(m, us), hrun, bind_eq_error_iff.mpr (.inl hfinish)⟩

/-! ## Juxtaposition -/

namespace Token

/-- The last token of one sequence ends an operand: an atom, a closing group, an operator behind its
operand or a count; and the first token of another begins one: an atom or an opening group. -/
def Juxtaposed (ts us : List Token) : Prop :=
  (∃ t ∈ ts.getLast?, t.isAtom = true ∨ t = .closeGroup ∨
    (∃ o : Operator, t = .op o ∧ o.isBinary = false) ∨ ∃ min max, t = .count min max) ∧
  ∃ u ∈ us.head?, u.isAtom = true ∨ u = .openGroup

variable {t : Token}

theorem endsOperand_iff : t.endsOperand = true ↔ t.isAtom = true ∨ t = .closeGroup ∨
    (∃ o : Operator, t = .op o ∧ o.isBinary = false) ∨ ∃ min max, t = .count min max := by
  cases t <;> simp [endsOperand, isAtom]

theorem beginsOperand_iff : t.beginsOperand = true ↔ t.isAtom = true ∨ t = .openGroup := by
  cases t <;> simp [beginsOperand, isAtom]

theorem juxtaposed_iff : Juxtaposed ts us ↔
    (ts.getLast?.any endsOperand && us.head?.any beginsOperand) = true := by
  simp only [Juxtaposed, ← endsOperand_iff, ← beginsOperand_iff, Bool.and_eq_true,
    Option.any_eq_true, Option.mem_def]

theorem getLast?_joinOperands (ts : List Token) : (joinOperands ts).getLast? = ts.getLast? := by
  fun_induction joinOperands ts with
  | case1 => rfl
  | case2 t => rfl
  | case3 t u ts hjoin ih =>
    cases hrest : joinOperands (u :: ts) with
    | nil => cases joinOperands_eq_nil_iff.mp hrest
    | cons v vs =>
      rw [hrest] at ih
      rw [List.getLast?_cons_cons, List.getLast?_cons_cons, ih, List.getLast?_cons_cons]
  | case4 t u ts hjoin ih =>
    cases hrest : joinOperands (u :: ts) with
    | nil => cases joinOperands_eq_nil_iff.mp hrest
    | cons v vs =>
      rw [hrest] at ih
      rw [List.getLast?_cons_cons, ih, List.getLast?_cons_cons]

theorem head?_joinOperands (ts : List Token) : (joinOperands ts).head? = ts.head? := by
  fun_cases joinOperands ts <;> rfl

/-- What stands between two sequences does not depend on what is made explicit within them. -/
theorem glue_joinOperands (ts us : List Token) :
    glue (joinOperands ts) (joinOperands us) = glue ts us := by
  rw [glue, getLast?_joinOperands, head?_joinOperands, glue]

end Token

/-! ## Patterns -/

/-- **The lexer works online.** Let two texts be no longer than a pattern together.

* If both have tokens, their tokens side by side are those of the whole text, with a concatenation
  between them exactly if an operand begins right after another has ended.
* If only the first has tokens, the error of the second is that of the whole text.
* If the error of the first is not that it ends too early, it is that of the whole text. -/
theorem tokenize_append (hlength : p.length + q.length ≤ maxPatternLength) :
    (∀ ts us, tokenize p = .ok ts → tokenize q = .ok us →
      ∃ mid, tokenize (p ++ q) = .ok (ts ++ mid ++ us) ∧
        (Token.Juxtaposed ts us → mid = [.op .concat]) ∧
        (¬ Token.Juxtaposed ts us → mid = [])) ∧
    (∀ ts e, tokenize p = .ok ts → tokenize q = .error e → tokenize (p ++ q) = .error e) ∧
    ∀ e, tokenize p = .error e → e.isUnterminated = false → tokenize (p ++ q) = .error e := by
  have hp : p.length ≤ maxPatternLength := by omega
  have hq : q.length ≤ maxPatternLength := by omega
  have happend : (p ++ q).length ≤ maxPatternLength := by rwa [List.length_append]
  refine ⟨?_, ?_, ?_⟩
  · intro ts us hts hus
    obtain ⟨vs, hvs, rfl⟩ := Lexer.exists_emits_of_tokenize hts
    obtain ⟨ws, hws, rfl⟩ := Lexer.exists_emits_of_tokenize hus
    refine ⟨Token.glue (Token.joinOperands vs) (Token.joinOperands ws), ?_, ?_, ?_⟩
    · rw [Token.glue_joinOperands, ← Token.joinOperands_append]
      exact (hvs.append hws).tokenize_eq happend
    · intro h
      exact if_pos (Token.juxtaposed_iff.mp h)
    · intro h
      exact if_neg (mt Token.juxtaposed_iff.mpr h)
  · intro ts e hts herror
    obtain ⟨vs, hvs, rfl⟩ := Lexer.exists_emits_of_tokenize hts
    rw [tokenize_eq_error_iff happend, hvs.run_append]
    rcases (tokenize_eq_error_iff hq).mp herror with h | ⟨m, ws, h, hfinish⟩
    · rw [h]
      exact .inl rfl
    · rw [h]
      exact .inr ⟨m, vs ++ ws, rfl, hfinish⟩
  · intro e herror hopen
    rw [tokenize_eq_error_iff happend]
    rcases (tokenize_eq_error_iff hp).mp herror with h | ⟨m, ws, -, hfinish⟩
    · exact .inl (Lexer.run_append_of_error h)
    · rw [Lexer.isUnterminated_of_finish hfinish] at hopen
      cases hopen

/-- The patterns `a{2}` and `(b)`, whose group begins an operand; `a|` before `b`, where an
alternation ends none; `a` before the open bracket `[x`; and the bracket `[z-a`, whose range is not
in order, before `]`. -/
theorem tokenize_append_group :
    tokenize [0x61, 0x7B, 0x32, 0x7D, 0x28, 0x62, 0x29] = .ok [.byte 0x61, .count 2 (some 2),
        .op .concat, .openGroup, .byte 0x62, .closeGroup] ∧
      tokenize [0x61, 0x7C, 0x62] = .ok [.byte 0x61, .op .alternation, .byte 0x62] ∧
      tokenize [0x61, 0x5B, 0x78] = .error .unterminatedBracket ∧
      tokenize [0x5B, 0x7A, 0x2D, 0x61, 0x5D] = .error (.invertedRange 0x7A 0x61) := by
  have hcount : tokenize [0x61, 0x7B, 0x32, 0x7D] = .ok [.byte 0x61, .count 2 (some 2)] := rfl
  have hgroup : tokenize [0x28, 0x62, 0x29] = .ok [.openGroup, .byte 0x62, .closeGroup] := rfl
  have hbar : tokenize [0x61, 0x7C] = .ok [.byte 0x61, .op .alternation] := rfl
  have hbyte : tokenize [0x62] = .ok [.byte 0x62] := rfl
  have hfirst : tokenize [0x61] = .ok [.byte 0x61] := rfl
  have hopen : tokenize [0x5B, 0x78] = .error .unterminatedBracket := rfl
  have hrange : tokenize [0x5B, 0x7A, 0x2D, 0x61] = .error (.invertedRange 0x7A 0x61) := rfl
  obtain ⟨mid, h₁, hmid, -⟩ := (@tokenize_append [0x61, 0x7B, 0x32, 0x7D] [0x28, 0x62, 0x29]
    (by decide)).1 _ _ hcount hgroup
  obtain rfl := hmid (Token.juxtaposed_iff.mpr rfl)
  obtain ⟨mid, h₂, -, hmid⟩ := (@tokenize_append [0x61, 0x7C] [0x62] (by decide)).1 _ _ hbar hbyte
  obtain rfl := hmid (by simp [Token.juxtaposed_iff, Token.endsOperand, Operator.isBinary])
  exact ⟨h₁, h₂, (@tokenize_append [0x61] [0x5B, 0x78] (by decide)).2.1 _ _ hfirst hopen,
    (@tokenize_append [0x5B, 0x7A, 0x2D, 0x61] [0x5D] (by decide)).2.2 _ hrange rfl⟩

end ByteRegex
