import ByteRegex.Pattern.Lexer
import ByteRegex.Proofs.Basic
import Mathlib.Logic.Function.Defs

/-!
# Runs of the lexer

A pattern has tokens if its length is within the limit and the run over it ends where nothing is
left open (`tokenize_eq_ok_iff`). Whatever is read between two such places gives at least one token
(`Lexer.eq_nil_of_run`), so that only the empty pattern has none (`tokenize_eq_ok_nil_iff`).
-/

namespace ByteRegex

/-- A byte is one character, so a byte that is a mark of the notation is that mark. -/
theorem Byte.char_injective : Function.Injective Byte.char := by
  intro b c h
  exact UInt8.toUInt32_inj.mp (congrArg Char.val h)

namespace Lexer

variable {m m' : Mode} {c : Byte} {p : List Byte} {ts : List Token}

theorem bracketTokens_ne_nil (negated : Bool) (members : ByteSet) :
    bracketTokens negated members ≠ [] := by
  unfold bracketTokens
  split
  · simp
  · split <;> simp

theorem ne_nil_of_bracketStep {s : BracketState} (h : bracketStep s c = .ok (.plain, ts)) :
    ts ≠ [] := by
  unfold bracketStep at h
  split at h
  · obtain ⟨us, hus, heq⟩ := map_eq_ok h
    obtain rfl := (Prod.mk.inj heq).2
    unfold BracketState.close at hus
    split at hus
    · cases hus
    · split at hus
      · cases hus
      · rw [← Except.ok.inj hus]
        exact bracketTokens_ne_nil _ _
  · obtain ⟨_, _, heq⟩ := map_eq_ok h
    cases heq
  · cases h
  · obtain ⟨_, _, heq⟩ := map_eq_ok h
    cases heq

/-- A byte after which nothing is left open completes at least one token. -/
theorem ne_nil_of_step (h : step m c = .ok (.plain, ts)) : ts ≠ [] := by
  cases m with
  | plain =>
    simp only [step, plainStep, Except.ok.injEq] at h
    split at h <;> cases h <;> simp
  | escape =>
    simp only [step, escapeStep] at h
    split at h <;> cases h
    simp
  | count s =>
    simp only [step, countStep] at h
    split at h
    · obtain ⟨_, _, heq⟩ := map_eq_ok h
      cases heq
    · split at h
      · cases h
      · split at h
        · obtain ⟨_, _, heq⟩ := map_eq_ok h
          cases heq
        · cases h
      · obtain ⟨_, _, heq⟩ := map_eq_ok h
        rw [← (Prod.mk.inj heq).2]
        simp
      · cases h
  | bracketStart =>
    simp only [step] at h
    split at h
    · cases h
    · exact ne_nil_of_bracketStep h
  | bracket s => exact ne_nil_of_bracketStep h
  | bracketEscape s =>
    simp only [step, bracketEscapeStep] at h
    split at h
    · obtain ⟨_, _, heq⟩ := map_eq_ok h
      cases heq
    · obtain ⟨_, _, heq⟩ := map_eq_ok h
      cases heq
    · cases h
    · cases h

theorem run_cons_eq_ok (h : run m (c :: p) = .ok (m', ts)) :
    ∃ m₁ us vs, step m c = .ok (m₁, us) ∧ run m₁ p = .ok (m', vs) ∧ us ++ vs = ts := by
  obtain ⟨⟨m₁, us⟩, hstep, h⟩ := bind_eq_ok h
  obtain ⟨⟨m₂, vs⟩, hrun, h⟩ := bind_eq_ok h
  cases h
  exact ⟨m₁, us, vs, hstep, hrun, rfl⟩

/-- A run that ends where nothing is left open gives a token if it reads anything. -/
theorem eq_nil_of_run (h : run m p = .ok (.plain, [])) : p = [] := by
  induction p generalizing m with
  | nil => rfl
  | cons c p ih =>
    obtain ⟨m₁, us, vs, hstep, hrun, heq⟩ := run_cons_eq_ok h
    obtain ⟨rfl, rfl⟩ := List.append_eq_nil_iff.mp heq
    obtain rfl := ih hrun
    cases hrun
    exact absurd rfl (ne_nil_of_step hstep)

theorem finish_eq_ok (h : finish m = .ok ()) : m = .plain := by
  cases m <;> first | rfl | cases h

end Lexer

variable {pattern : List Byte} {ts : List Token}

theorem tokenize_eq_ok_iff :
    tokenize pattern = .ok ts ↔ pattern.length ≤ maxPatternLength ∧
      ∃ us, Lexer.run .plain pattern = .ok (.plain, us) ∧ Token.joinOperands us = ts := by
  unfold tokenize
  by_cases hlength : pattern.length > maxPatternLength
  · rw [if_pos hlength]
    constructor
    · intro h
      cases h
    · rintro ⟨hle, -⟩
      exact absurd hlength (Nat.not_lt.mpr hle)
  · rw [if_neg hlength]
    constructor
    · intro h
      obtain ⟨⟨m, us⟩, hrun, h⟩ := bind_eq_ok h
      obtain ⟨⟨⟩, hfinish, h⟩ := bind_eq_ok h
      obtain rfl := Lexer.finish_eq_ok hfinish
      exact ⟨Nat.not_lt.mp hlength, us, hrun, Except.ok.inj h⟩
    · rintro ⟨-, us, hrun, rfl⟩
      show (Lexer.run .plain pattern >>= _) = _
      rw [hrun]
      rfl

theorem Token.joinOperands_eq_nil_iff : joinOperands ts = [] ↔ ts = [] := by
  fun_cases joinOperands ts <;> simp_all

/-- Only the empty pattern has no tokens. -/
theorem tokenize_eq_ok_nil_iff : tokenize pattern = .ok [] ↔ pattern = [] := by
  constructor
  · intro h
    obtain ⟨-, us, hrun, hjoin⟩ := tokenize_eq_ok_iff.mp h
    obtain rfl := Token.joinOperands_eq_nil_iff.mp hjoin
    exact Lexer.eq_nil_of_run hrun
  · rintro rfl
    rfl

end ByteRegex
